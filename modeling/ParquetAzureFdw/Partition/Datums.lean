/-
# The types of partition datums

A partition column has two types: the one that `partition_keys` declares, by which
`parse_text_to_datum` casts the text of the path, and the one that the catalog has for the
attribute, by which the executor reads the datum in the slot.  Neither
`parse_table_options_from_slice` nor `build_scan_state_core` compares them: the option is
matched with the attribute by name.

A datum is a machine word.  An integer or a date is the word itself, a text is a pointer;
so a key of type `int4` on a column of type `text` hands the executor a number for an
address.  What the executor reads is the value of the path exactly when the attribute has
the type of its key, or both are integers and the value fits the attribute's
(`partition_datum_represents_iff`).
-/

import ParquetAzureFdw.Options.Table
import ParquetAzureFdw.Scan.Projection

namespace ParquetAzureFdw

/-! ### Datums as the executor finds them -/

/-- The key type of an attribute's own type. -/
def PgPartitionType.ofOid (oid : Oid) : Option PgPartitionType :=
  if oid = int2Oid then some .int2
  else if oid = int4Oid then some .int4
  else if oid = int8Oid then some .int8
  else if oid = textOid ∨ oid = varcharOid then some .text
  else if oid = dateOid then some .date
  else none

/-- The word of a datum that is passed by value, sign-extended. -/
def Datum.word? : Datum → Option ℤ
  | .int2 v => some v.toInt
  | .int4 v => some v.toInt
  | .int8 v => some v.toInt
  | .date days => some days.toInt
  | _ => none

/-- What the executor finds in a datum that it takes for one of the type: an integer or a date is
cut out of the word, a text is read behind the pointer; no pointer is a number that was stored
for it, and no number a pointer. -/
def Datum.foundAs (d : Datum) : PgPartitionType → Option Datum
  | .int2 => d.word?.map fun w => .int2 (Int16.ofInt w)
  | .int4 => d.word?.map fun w => .int4 (Int32.ofInt w)
  | .int8 => d.word?.map fun w => .int8 (Int64.ofInt w)
  | .date => d.word?.map fun w => .date (Int32.ofInt w)
  | .text =>
    match d with
    | .text s => some (.text s)
    | _ => none

/-- The text of the path stands for the datum. -/
def Datum.Spelled (ext : Externals) : Datum → String → Prop
  | .int2 v, raw => parseSigned 16 raw = some v.toInt
  | .int4 v, raw => parseSigned 32 raw = some v.toInt
  | .int8 v, raw => parseSigned 64 raw = some v.toInt
  | .date days, raw => ext.parseYmd raw = .ok days.toInt
  | .text s, raw => s = raw
  | _, _ => False

/-- The datum is one of the attribute's type, for the text of the path. -/
def Datum.Represents (ext : Externals) (d : Datum) (oid : Oid) (raw : String) : Prop :=
  ∃ own found, PgPartitionType.ofOid oid = some own ∧ d.foundAs own = some found ∧
    found.Spelled ext raw

/-- The key type suits the attribute: it is the attribute's own, or both are integer types and the
value fits the attribute's. -/
def PgPartitionType.Fits (ty : PgPartitionType) (oid : Oid) (raw : String) : Prop :=
  ∃ own, PgPartitionType.ofOid oid = some own ∧
    (own = ty ∨ ty.bits.isSome = true ∧ ∃ bits v, own.bits = some bits ∧ parseSigned bits raw = some v)

/-- `%Y-%m-%d` has dashes between digits, and so reads no integer. -/
def DatesAreNoIntegers (ext : Externals) : Prop :=
  ∀ raw days, ext.parseYmd raw = .ok days → parseSigned 64 raw = none

/-! ### The cast -/

section Cast

variable {ext : Externals} {raw : String} {d : Datum}

/-- The number of an integer key is the word of its datum. -/
theorem parseTextToDatum_word {ty : PgPartitionType} {bits : ℕ} (hbits : ty.bits = some bits)
    (h : parseTextToDatum ext ty raw = .ok d) :
    ∃ v, parseSigned bits raw = some v ∧ d.word? = some v := by
  cases ty with
  | int2 =>
    obtain rfl := Option.some.inj hbits
    obtain ⟨v, hv, -, rfl⟩ := parseIntDatum_eq_ok h
    obtain ⟨-, hlow, hhigh⟩ := parseSigned_eq_some.mp hv
    exact ⟨v, hv, congrArg some (Int16.toInt_ofInt_of_le hlow hhigh)⟩
  | int4 =>
    obtain rfl := Option.some.inj hbits
    obtain ⟨v, hv, -, rfl⟩ := parseIntDatum_eq_ok h
    obtain ⟨-, hlow, hhigh⟩ := parseSigned_eq_some.mp hv
    exact ⟨v, hv, congrArg some (Int32.toInt_ofInt_of_le hlow hhigh)⟩
  | int8 =>
    obtain rfl := Option.some.inj hbits
    obtain ⟨v, hv, -, rfl⟩ := parseIntDatum_eq_ok h
    obtain ⟨-, hlow, hhigh⟩ := parseSigned_eq_some.mp hv
    exact ⟨v, hv, congrArg some (Int64.toInt_ofInt_of_le hlow hhigh)⟩
  | text | date => cases hbits

theorem PgPartitionType.bits_le {ty : PgPartitionType} {bits : ℕ} (h : ty.bits = some bits) :
    bits ≤ 64 := by
  cases ty <;> cases h <;> decide

/-- Two readings of a text are of the same number. -/
theorem parseSigned_unique {bits bits' : ℕ} {v v' : ℤ} (h : parseSigned bits raw = some v)
    (h' : parseSigned bits' raw = some v') : v = v' :=
  Option.some.inj ((parseSigned_eq_some.mp h).1.symm.trans (parseSigned_eq_some.mp h').1)

/-- An integer that is cut out of a word is the value of the path exactly when that fits. -/
theorem foundAs_int_iff {own : PgPartitionType} {bits : ℕ} (hbits : own.bits = some bits) {w : ℤ}
    (hword : d.word? = some w) (hraw : ∀ v, parseSigned bits raw = some v → v = w) :
    (∃ found, d.foundAs own = some found ∧ found.Spelled ext raw) ↔
      ∃ v, parseSigned bits raw = some v := by
  -- The three widths differ in the function that cuts, which keeps what fits.
  have hcut : ∀ cut : ℤ → ℤ, (∀ v, -2 ^ (bits - 1) ≤ v → v < 2 ^ (bits - 1) → cut v = v) →
      (parseSigned bits raw = some (cut w) ↔ ∃ v, parseSigned bits raw = some v) := by
    intro cut hcut
    constructor
    · intro h
      exact ⟨_, h⟩
    · rintro ⟨v, hv⟩
      obtain ⟨-, hlow, hhigh⟩ := parseSigned_eq_some.mp hv
      obtain rfl := hraw v hv
      rw [hcut v hlow hhigh, hv]
  cases own with
  | int2 =>
    obtain rfl := Option.some.inj hbits
    simp only [Datum.foundAs, hword, Option.map_some, Option.some.injEq, exists_eq_left']
    exact hcut (fun v => (Int16.ofInt v).toInt) fun v => Int16.toInt_ofInt_of_le
  | int4 =>
    obtain rfl := Option.some.inj hbits
    simp only [Datum.foundAs, hword, Option.map_some, Option.some.injEq, exists_eq_left']
    exact hcut (fun v => (Int32.ofInt v).toInt) fun v => Int32.toInt_ofInt_of_le
  | int8 =>
    obtain rfl := Option.some.inj hbits
    simp only [Datum.foundAs, hword, Option.map_some, Option.some.injEq, exists_eq_left']
    exact hcut (fun v => (Int64.ofInt v).toInt) fun v => Int64.toInt_ofInt_of_le
  | text | date => cases hbits

/-- A key of an integer type. -/
theorem found_of_int_key (hdates : DatesAreNoIntegers ext) {ty own : PgPartitionType} {bits : ℕ}
    (hbits : ty.bits = some bits) (h : parseTextToDatum ext ty raw = .ok d) :
    (∃ found, d.foundAs own = some found ∧ found.Spelled ext raw) ↔
      ∃ bits v, own.bits = some bits ∧ parseSigned bits raw = some v := by
  obtain ⟨w, hw, hword⟩ := parseTextToDatum_word hbits h
  cases hown : own.bits with
  | some ownBits =>
    rw [foundAs_int_iff hown hword fun v hv => parseSigned_unique hv hw]
    simp
  | none =>
    simp only [reduceCtorEq, false_and, exists_false, iff_false]
    rintro ⟨found, hfound, hspelled⟩
    cases own with
    | int2 | int4 | int8 => cases hown
    | text =>
      cases d with
      | text s => cases hword
      | _ => cases hfound
    | date =>
      rw [Datum.foundAs, hword] at hfound
      obtain rfl := Option.some.inj hfound
      have hnone := hdates raw _ hspelled
      rw [parseSigned_mono (PgPartitionType.bits_le hbits) hw] at hnone
      cases hnone

/-- A key of type `date`. -/
theorem found_of_date_key (hdates : DatesAreNoIntegers ext) {own : PgPartitionType}
    (h : parseTextToDatum ext .date raw = .ok d) :
    (∃ found, d.foundAs own = some found ∧ found.Spelled ext raw) ↔ own = .date := by
  obtain ⟨days, rfl, hparse⟩ := parseTextToDatum_date_eq_ok h
  have hnone := hdates raw _ hparse
  constructor
  · rintro ⟨found, hfound, hspelled⟩
    have hint : ∀ bits, own.bits = some bits → False := by
      intro bits hbits
      have hword : (Datum.date days).word? = some days.toInt := rfl
      have hno : ∀ v, parseSigned bits raw = some v → v = days.toInt := by
        intro v hv
        rw [parseSigned_mono (PgPartitionType.bits_le hbits) hv] at hnone
        cases hnone
      obtain ⟨v, hv⟩ := (foundAs_int_iff hbits hword hno).mp ⟨found, hfound, hspelled⟩
      rw [parseSigned_mono (PgPartitionType.bits_le hbits) hv] at hnone
      cases hnone
    cases own with
    | int2 | int4 | int8 => exact (hint _ rfl).elim
    | text => cases hfound
    | date => rfl
  · rintro rfl
    refine ⟨.date days, ?_, hparse⟩
    simp [Datum.foundAs, Datum.word?]

/-- A key of type `text`. -/
theorem found_of_text_key {own : PgPartitionType} (h : parseTextToDatum ext .text raw = .ok d) :
    (∃ found, d.foundAs own = some found ∧ found.Spelled ext raw) ↔ own = .text := by
  obtain rfl := Except.ok.inj h
  cases own with
  | text => exact iff_of_true ⟨_, rfl, rfl⟩ rfl
  | _ => simp [Datum.foundAs, Datum.word?]

/-- **The datum of a castable text represents it in the attribute exactly when the key type
fits.** -/
theorem represents_iff_fits (hdates : DatesAreNoIntegers ext) {ty : PgPartitionType} {oid : Oid}
    (h : parseTextToDatum ext ty raw = .ok d) : d.Represents ext oid raw ↔ ty.Fits oid raw := by
  have hown : ∀ own : PgPartitionType,
      (∃ found, d.foundAs own = some found ∧ found.Spelled ext raw) ↔
        (own = ty ∨ ty.bits.isSome = true ∧
          ∃ bits v, own.bits = some bits ∧ parseSigned bits raw = some v) := by
    intro own
    cases hbits : ty.bits with
    | some bits =>
      rw [found_of_int_key hdates hbits h]
      constructor
      · intro hfits
        exact .inr ⟨rfl, hfits⟩
      · rintro (rfl | ⟨-, hfits⟩)
        · obtain ⟨v, hv, -⟩ := parseTextToDatum_word hbits h
          exact ⟨bits, v, hbits, hv⟩
        · exact hfits
    | none =>
      simp only [Option.isSome_none, Bool.false_eq_true, false_and, or_false]
      cases ty with
      | int2 | int4 | int8 => cases hbits
      | text => exact found_of_text_key h
      | date => exact found_of_date_key hdates h
  constructor
  · rintro ⟨own, found, hoid, hfound⟩
    exact ⟨own, hoid, (hown own).mp ⟨found, hfound⟩⟩
  · rintro ⟨own, hoid, hfits⟩
    obtain ⟨found, hfound⟩ := (hown own).mpr hfits
    exact ⟨own, found, hoid, hfound⟩

end Cast

/-! ### The slot -/

/-- The overlay leaves the last datum of an attribute. -/
theorem overlayPartition_last {attnos : List ℕ} {datums : List Datum} {slot : List (Option Datum)}
    {j a : ℕ} {d : Datum} (hj : attnos[j]? = some a) (hd : datums[j]? = some d)
    (hlast : ∀ k, j < k → attnos[k]? ≠ some a) (hlt : a < slot.length) :
    (overlayPartition attnos datums slot)[a]? = some (some d) := by
  induction attnos generalizing datums slot j with
  | nil => simp at hj
  | cons b attnos ih =>
    cases datums with
    | nil => simp at hd
    | cons e datums =>
      rw [overlayPartition]
      cases j with
      | zero =>
        obtain rfl : b = a := by simpa using hj
        obtain rfl : e = d := by simpa using hd
        have hnot : b ∉ attnos := by
          intro hmem
          obtain ⟨k, hk⟩ := List.getElem?_of_mem hmem
          exact hlast (k + 1) (by omega) (by simpa using hk)
        rw [overlayPartition_of_notMem hnot, List.getElem?_set_self hlt]
      | succ j =>
        refine ih (by simpa using hj) (by simpa using hd) (fun k hk => ?_) (by simpa using hlt)
        simpa using hlast (k + 1) (by omega)

theorem length_overlayColumns {cfg : ScanConfig} {batch : RecordBatch} {row k : ℕ} {attnos : List ℕ}
    {slot slot' : List (Option Datum)} (h : overlayColumns cfg batch row k attnos slot = .ok slot') :
    slot'.length = slot.length := by
  induction attnos generalizing k slot with
  | nil => rw [← Except.ok.inj h]
  | cons a attnos ih =>
    rw [overlayColumns] at h
    split at h
    · cases h
    split at h
    · cases h
    obtain ⟨v, -, h⟩ := except_bind_eq_ok.mp h
    rw [ih h, List.length_set]

/-- So does the filling of a slot, whatever the columns of the row have left. -/
theorem fillSlot_last {cfg : ScanConfig} {slot filled : List (Option Datum)} {datums : List Datum}
    {batch : RecordBatch} {row j a : ℕ} {d : Datum}
    (hfill : fillSlot cfg slot datums batch row = .ok filled) (hj : cfg.partitionAttnums[j]? = some a)
    (hd : datums[j]? = some d) (hlast : ∀ k, j < k → cfg.partitionAttnums[k]? ≠ some a)
    (hslot : a < slot.length) (hnatts : a < cfg.pgOids.length) : filled[a]? = some (some d) := by
  obtain ⟨columns, hcolumns, hfill⟩ := except_bind_eq_ok.mp hfill
  rw [← Except.ok.inj hfill]
  refine overlayPartition_last hj hd hlast ?_
  rw [length_overlayColumns hcolumns]
  split_ifs
  · rwa [List.length_replicate]
  · exact hslot

/-- Of two keys for an attribute the last one counts. -/
def LastKey (cfg : ScanConfig) (a : ℕ) (key : String × PgPartitionType) : Prop :=
  ∃ j : ℕ, cfg.partitionAttnums[j]? = some a ∧ cfg.partitionKeysDecl[j]? = some key ∧
    ∀ k, j < k → cfg.partitionAttnums[k]? ≠ some a

/-- An attribute that occurs in a list has a last occurrence. -/
theorem exists_last_index {l : List ℕ} {a : ℕ} (ha : a ∈ l) :
    ∃ j : ℕ, l[j]? = some a ∧ ∀ k, j < k → l[k]? ≠ some a := by
  induction l with
  | nil => simp at ha
  | cons b l ih =>
    by_cases hmem : a ∈ l
    · obtain ⟨j, hj, hlast⟩ := ih hmem
      refine ⟨j + 1, by simpa using hj, fun k hk => ?_⟩
      obtain ⟨k, rfl⟩ := Nat.exists_eq_add_of_le' (by omega : 1 ≤ k)
      simpa using hlast k (by omega)
    · obtain rfl : a = b := by simpa [hmem] using ha
      refine ⟨0, rfl, fun k hk hk' => hmem ?_⟩
      obtain ⟨k, rfl⟩ := Nat.exists_eq_add_of_le' (by omega : 1 ≤ k)
      exact List.mem_of_getElem? (by simpa using hk')

/-- **The datum in the slot of a partition attribute is one of the attribute's own type, for the
value of the path, exactly when the last key declared for the attribute fits it.** -/
theorem partition_datum_represents_iff {ext : Externals} (hdates : DatesAreNoIntegers ext)
    {kv : List (String × String)} {opts : TableOptions}
    (haccepted : parseTableOptionsFromSlice kv = .ok opts) {attrs : List Attribute}
    {qualFilter : Option (List PushedExpr)} {fdwPrivate : Option (List ℤ)} {cfg : ScanConfig}
    (hcfg : buildScanConfig ext attrs (parseTableOptionsFromSlice_eq_ok haccepted).partitions
      qualFilter fdwPrivate = .ok cfg)
    {blob : String} {datums : List Datum}
    (hcast : partitionDatums ext opts.partitionKeys blob = .ok (.ok datums))
    {slot filled : List (Option Datum)} (hslot : slot.length = attrs.length) {batch : RecordBatch}
    {row : ℕ} (hfill : fillSlot cfg slot datums batch row = .ok filled) :
    ∃ parsed, partitionValuesFromPath blob opts.partitionKeys = .ok parsed ∧
      ∀ a ∈ cfg.partitionAttnums, ∃ att key raw, attrs[a]? = some att ∧ LastKey cfg a key ∧
        parsed.lookup key.1 = some raw ∧
        ((∃ d, filled[a]? = some (some d) ∧ d.Represents ext att.typid raw) ↔
          key.2.Fits att.typid raw) := by
  obtain ⟨oids, hoids, hcfg⟩ := except_bind_eq_ok.mp hcfg
  obtain ⟨attnums, hattnums, hcfg⟩ := except_bind_eq_ok.mp hcfg
  obtain ⟨idxs, -, hcfg⟩ := except_bind_eq_ok.mp hcfg
  obtain rfl := Except.ok.inj hcfg
  have hnatts : oids.length = attrs.length := by rw [attributeOids_eq hoids, List.length_map]
  obtain ⟨parsed, hparsed, hkeys⟩ := partitionDatums_eq_ok hcast
  refine ⟨parsed, hparsed, fun a ha => ?_⟩
  obtain ⟨j, hj, hlast⟩ := exists_last_index ha
  have hattno : a < attrs.length :=
    ((mem_partitionAttnums_iff hattnums).mp (List.mem_of_getElem? hj)).lt
  -- The key and the datum at the place of the attribute.
  obtain ⟨col, hcol, -⟩ := forall₂_getElem? (mapM_eq_ok_iff.mp hattnums).flip hj
  obtain ⟨key, hkey, -⟩ := forall₂_getElem? (parseTableOptionsFromSlice_eq_ok haccepted).agree hcol
  obtain ⟨d, hd, raw, hraw, hdatum⟩ := forall₂_getElem? hkeys hkey
  have hstored : filled[a]? = some (some d) :=
    fillSlot_last hfill hj hd hlast (hattno.trans_eq hslot.symm) (hattno.trans_eq hnatts.symm)
  refine ⟨attrs[a], key, raw, List.getElem?_eq_getElem hattno, ⟨j, hj, hkey, hlast⟩, hraw, ?_⟩
  rw [← represents_iff_fits hdates hdatum, hstored]
  simp

/-- The options of a table that is partitioned by the integer key `year`. -/
def yearOptions : List (String × String) :=
  [("container", "data"), ("filename", "t/*.parquet"), ("partition_columns", "year"),
    ("partition_keys", "year:int4")]

/-- What is read of them. -/
def yearTable : TableOptions :=
  ⟨"data", "t/*.parquet", .snappy, none, ["year"], [("year", .int4)], [], false⟩

theorem yearOptions_accepted : parseTableOptionsFromSlice yearOptions = .ok yearTable := by
  decide

/-- A relation with an integer and the partition column, of type `oid`. -/
def yearRelation (oid : Oid) : List Attribute :=
  [⟨"v", int4Oid, false, false⟩, ⟨"year", oid, false, false⟩]

/-- The configuration of its scans that read the integer. -/
def yearScan (oid : Oid) : ScanConfig :=
  ⟨twoDays, [int4Oid, oid], some [0], [0], none, [1], [("year", .int4)]⟩

/-- One row of a blob, with the integer 7. -/
def oneSeven : RecordBatch where
  numRows := 1
  columns := [⟨.int32, [some (.int32 7)], by decide⟩]
  length_eq := by simp

theorem twoDays_datesAreNoIntegers : DatesAreNoIntegers twoDays := by
  intro raw days h
  simp only [twoDays] at h
  split_ifs at h with hraw
  rw [hraw]
  decide

/-- Whatever the type of the column, the table is accepted and its scan begins. -/
theorem buildScanConfig_year (oid : Oid) :
    buildScanConfig twoDays (yearRelation oid)
      (parseTableOptionsFromSlice_eq_ok yearOptions_accepted).partitions none (some [1]) =
        .ok (yearScan oid) := by
  have hattnums : resolvePartitionAttnums (yearRelation oid) ["year"] = .ok [1] := by
    have hfirst : eqIgnoreAsciiCase "v".toList "year".toList = false := by decide
    have hsecond : eqIgnoreAsciiCase "year".toList "year".toList = true := by decide
    have hfind : (yearRelation oid).findIdx?
        (fun att => eqIgnoreAsciiCase att.name.toList "year".toList) = some 1 := by
      simp only [yearRelation, List.findIdx?_cons, hfirst, hsecond]
      rfl
    rw [resolvePartitionAttnums, List.mapM_cons, resolvePartitionAttnum_eq_ok.mpr hfind]
    rfl
  have hcolumns : (parseTableOptionsFromSlice_eq_ok yearOptions_accepted).partitions.columns =
      ["year"] := rfl
  rw [buildScanConfig, hcolumns, hattnums]
  rfl

theorem year_2024_cast : partitionDatums twoDays yearTable.partitionKeys "t/year=2024/a.parquet" =
    .ok (.ok [.int4 2024]) := by
  decide

theorem fillSlot_year (oid : Oid) : fillSlot (yearScan oid) [none, none] [.int4 2024] oneSeven 0 =
    .ok [some (.int4 7), some (.int4 2024)] := rfl

theorem int_key_on_int_column : DatesAreNoIntegers twoDays ∧
    ∃ parsed, partitionValuesFromPath "t/year=2024/a.parquet" yearTable.partitionKeys = .ok parsed ∧
      ∀ a ∈ (yearScan int8Oid).partitionAttnums, ∃ att key raw,
        (yearRelation int8Oid)[a]? = some att ∧ LastKey (yearScan int8Oid) a key ∧
        parsed.lookup key.1 = some raw ∧
        ((∃ d, [some (Datum.int4 7), some (Datum.int4 2024)][a]? = some (some d) ∧
            d.Represents twoDays att.typid raw) ↔ key.2.Fits att.typid raw) :=
  ⟨twoDays_datesAreNoIntegers,
    partition_datum_represents_iff twoDays_datesAreNoIntegers yearOptions_accepted
      (buildScanConfig_year int8Oid) year_2024_cast rfl (fillSlot_year int8Oid)⟩

/-- **A number is stored for a text.** -/
theorem int_key_on_text_column :
    parseTableOptionsFromSlice yearOptions = .ok yearTable ∧
      buildScanConfig twoDays (yearRelation textOid)
        (parseTableOptionsFromSlice_eq_ok yearOptions_accepted).partitions none (some [1]) =
          .ok (yearScan textOid) ∧
      partitionDatums twoDays yearTable.partitionKeys "t/year=2024/a.parquet" =
        .ok (.ok [.int4 2024]) ∧
      fillSlot (yearScan textOid) [none, none] [.int4 2024] oneSeven 0 =
        .ok [some (.int4 7), some (.int4 2024)] ∧
      ¬ (Datum.int4 2024).Represents twoDays textOid "2024" := by
  refine ⟨yearOptions_accepted, buildScanConfig_year textOid, year_2024_cast,
    fillSlot_year textOid, ?_⟩
  rintro ⟨own, found, hown, hfound, -⟩
  obtain rfl : PgPartitionType.text = own := Option.some.inj hown
  cases hfound

end ParquetAzureFdw
