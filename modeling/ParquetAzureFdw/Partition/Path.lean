/-
# Partition values in a blob's path

`partition_values_from_path` of `src/fdw/partition.rs` and `parse_text_to_datum`
of `src/convert/arrow_to_pg.rs`.  A blob of a partitioned table carries the values
of its partition columns in its path, `…/year=2024/region=eu/part.parquet`.  The
parser reads them off (`partitionValuesFromPath`), the scan casts each to its
declared type (`partitionDatums`), and a blob whose path fails either step is
skipped with a `NOTICE`.

What is accepted is well formed: every declared key has one value, not empty and
with no percent sign (`partitionValuesFromPath_eq_ok_iff`), so that the `expect`
in the scan's loop is never reached (`partitionDatums_ok`).
-/

import ParquetAzureFdw.Convert.ArrowToPg

namespace ParquetAzureFdw

/-- `PgPartitionType`. -/
inductive PgPartitionType where
  | int2
  | int4
  | int8
  | text
  | date
  deriving DecidableEq, Repr

/-- `eq_ignore_ascii_case`. -/
def eqIgnoreAsciiCase (a b : List Char) : Bool := a.map Char.toLower == b.map Char.toLower

/-- `str::split_once` at a character. -/
def splitOnce (c : Char) : List Char → Option (List Char × List Char)
  | [] => none
  | x :: xs => if x = c then some ([], xs) else (splitOnce c xs).map fun kv => (x :: kv.1, kv.2)

theorem splitOnce_eq_none_iff {c : Char} {s : List Char} : splitOnce c s = none ↔ c ∉ s := by
  induction s with
  | nil => simp [splitOnce]
  | cons x s ih =>
    rw [splitOnce]
    split_ifs with hx
    · simp [hx]
    · simp [ih, Ne.symm hx]

theorem splitOnce_eq_some_iff {c : Char} {s before after : List Char} :
    splitOnce c s = some (before, after) ↔ s = before ++ c :: after ∧ c ∉ before := by
  induction s generalizing before with
  | nil => simp [splitOnce]
  | cons x s ih =>
    rw [splitOnce]
    split_ifs with hx
    · subst hx
      cases before with
      | nil => simp
      | cons y before => simp +contextual [eq_comm]
    · cases before with
      | nil => simp [hx]
      | cons y before =>
        rw [Option.map_eq_some_iff]
        constructor
        · rintro ⟨⟨key, value⟩, hkv, h⟩
          obtain ⟨⟨rfl, rfl⟩, rfl⟩ : (x = y ∧ key = before) ∧ value = after := by simpa using h
          obtain ⟨rfl, hkey⟩ := ih.mp hkv
          exact ⟨rfl, by simp [hkey, Ne.symm hx]⟩
        · rintro ⟨h, hmem⟩
          obtain ⟨rfl, rfl⟩ := List.cons.inj h
          exact ⟨(before, after), ih.mpr ⟨rfl, fun h => hmem (List.mem_cons_of_mem _ h)⟩, rfl⟩

/-! ### Values of the path -/

section Values

variable (blobName : String) (declared : List (String × PgPartitionType))

/-- The body of the parser's loop over the segments of the path. -/
def readSegment (found : List (String × String)) (segment : List Char) :
    FdwResult (List (String × String)) :=
  match splitOnce '=' segment with
  | none => .ok found
  | some (key, value) =>
    match declared.find? fun d => eqIgnoreAsciiCase d.1.toList key with
    | none => .ok found
    | some (declName, _) =>
      if value.isEmpty then
        .error (.schemaMismatch ("blob '" ++ blobName ++
          "' has empty value for partition key '" ++ declName ++ "'"))
      else if value.contains '%' then
        .error (.schemaMismatch ("blob '" ++ blobName ++ "' partition '" ++ declName ++
          "' value contains percent — URL-encoded partition values are not supported in v1"))
      else if (found.lookup declName).isSome then
        .error (.schemaMismatch ("blob '" ++ blobName ++
          "' has duplicate partition segment '" ++ declName ++ "='"))
      else .ok (found ++ [(declName, String.ofList value)])

/-- The check that a declared key was found. -/
def requireKey (found : List (String × String)) (name : String) : FdwResult Unit :=
  if (found.lookup name).isSome then .ok ()
  else .error (.schemaMismatch ("blob '" ++ blobName ++ "' missing partition key '" ++ name ++ "'"))

/-- `partition_values_from_path`; the `BTreeMap` is an association list. -/
def partitionValuesFromPath : FdwResult (List (String × String)) := do
  let found ← (blobName.toList.splitOn '/').foldlM (readSegment blobName declared) []
  let _ ← declared.mapM fun d => requireKey blobName found d.1
  return found

end Values

/-! ### Casts -/

/-- The digits of a number, at least one. -/
def parseDigits : List Char → Option ℕ
  | [] => none
  | ds => ds.foldlM (fun n c => if c.isDigit then some (10 * n + (c.toNat - '0'.toNat)) else none) 0

/-- `str::parse` to a signed integer of the given width. -/
def parseSigned (bits : ℕ) (raw : String) : Option ℤ := do
  let v ← match raw.toList with
    | '-' :: ds => (parseDigits ds).map fun n => -(n : ℤ)
    | '+' :: ds => (parseDigits ds).map fun n => (n : ℤ)
    | ds => (parseDigits ds).map fun n => (n : ℤ)
  if -2 ^ (bits - 1) ≤ v ∧ v < 2 ^ (bits - 1) then some v else none

/-- The digits of a number are read back. -/
theorem parseDigits_toDigits (n : ℕ) : parseDigits (Nat.toDigits 10 n) = some n := by
  have hfold : ∀ (ds : List Char) (init : ℕ), (∀ c ∈ ds, c.isDigit = true) →
      ds.foldlM (fun n c => if c.isDigit then some (10 * n + (c.toNat - '0'.toNat)) else none) init =
        some (Nat.ofDigitChars 10 ds init) := by
    intro ds
    induction ds with
    | nil => simp
    | cons c ds ih =>
      intro init hds
      rw [List.foldlM_cons, if_pos (hds c (by simp)), Nat.ofDigitChars_cons, Option.bind_eq_bind,
        Option.bind_some]
      exact ih _ fun c' hc' => hds c' (by simp [hc'])
  have hdigits : ∀ c ∈ Nat.toDigits 10 n, c.isDigit = true := fun c hc =>
    Nat.isDigit_of_mem_toDigits (by decide) (by decide) hc
  unfold parseDigits
  split
  · rename_i hnil
    exact absurd hnil Nat.toDigits_ne_nil
  · rw [hfold _ 0 hdigits, Nat.ofDigitChars_ten_toDigits]

/-- The number that a text with an optional sign stands for. -/
def signedValue : List Char → Option ℤ
  | '-' :: ds => (parseDigits ds).map fun n => -(n : ℤ)
  | '+' :: ds => (parseDigits ds).map fun n => (n : ℤ)
  | ds => (parseDigits ds).map fun n => (n : ℤ)

/-- A text is read as the number it stands for, when that fits. -/
theorem parseSigned_eq_some {bits : ℕ} {raw : String} {v : ℤ} :
    parseSigned bits raw = some v ↔
      signedValue raw.toList = some v ∧ -2 ^ (bits - 1) ≤ v ∧ v < 2 ^ (bits - 1) := by
  have hbind : parseSigned bits raw = (signedValue raw.toList).bind fun v =>
      if -2 ^ (bits - 1) ≤ v ∧ v < 2 ^ (bits - 1) then some v else none := by
    unfold parseSigned signedValue
    split <;> rfl
  rw [hbind, Option.bind_eq_some_iff]
  constructor
  · rintro ⟨v', hv', h⟩
    split_ifs at h with hrange
    obtain rfl := Option.some.inj h
    exact ⟨hv', hrange⟩
  · rintro ⟨hv, hrange⟩
    exact ⟨v, hv, if_pos hrange⟩

/-- A wider integer reads the same texts. -/
theorem parseSigned_mono {bits bits' : ℕ} (hbits : bits ≤ bits') {raw : String} {v : ℤ}
    (h : parseSigned bits raw = some v) : parseSigned bits' raw = some v := by
  have hpow : (2 : ℤ) ^ (bits - 1) ≤ 2 ^ (bits' - 1) :=
    pow_le_pow_right₀ (by decide) (Nat.sub_le_sub_right hbits 1)
  obtain ⟨hvalue, hlow, hhigh⟩ := parseSigned_eq_some.mp h
  exact parseSigned_eq_some.mpr ⟨hvalue, by omega, by omega⟩

theorem signedValue_toString (v : ℤ) : signedValue (toString v).toList = some v := by
  rw [Int.toString_eq_repr, Int.repr_eq_if]
  split_ifs with hneg
  · have hdigits : (Nat.repr v.toNat).toList = Nat.toDigits 10 v.toNat := Nat.toList_repr
    have hsign : ∀ c ds, Nat.toDigits 10 v.toNat = c :: ds → c ≠ '-' ∧ c ≠ '+' := by
      intro c ds hcons
      have hdigit : c.isDigit = true :=
        Nat.isDigit_of_mem_toDigits (by decide) (by decide) (hcons ▸ List.mem_cons_self)
      constructor <;> rintro rfl <;> cases hdigit
    rw [hdigits]
    unfold signedValue
    split
    · rename_i ds hcons
      exact absurd rfl (hsign _ _ hcons).1
    · rename_i ds hcons
      exact absurd rfl (hsign _ _ hcons).2
    · simp [parseDigits_toDigits, Int.toNat_of_nonneg hneg]
  · have hdigits : (Nat.repr (-v).toNat).toList = Nat.toDigits 10 (-v).toNat := Nat.toList_repr
    have hminus : "-".toList = ['-'] := rfl
    rw [String.toList_append, hdigits, hminus]
    simp [signedValue, parseDigits_toDigits, Int.toNat_of_nonneg (by omega : 0 ≤ -v)]

/-- A number that fits is read back from its text. -/
theorem parseSigned_toString {bits : ℕ} {v : ℤ} (hlow : -2 ^ (bits - 1) ≤ v)
    (hhigh : v < 2 ^ (bits - 1)) : parseSigned bits (toString v) = some v :=
  parseSigned_eq_some.mpr ⟨signedValue_toString v, hlow, hhigh⟩

/-- The number of a datum of an integer type. -/
def Datum.int? : Datum → Option ℤ
  | .int2 v => some v.toInt
  | .int4 v => some v.toInt
  | .int8 v => some v.toInt
  | _ => none

/-- The three integer branches of `parse_text_to_datum`. -/
def parseIntDatum (typeName : String) (bits : ℕ) (intoDatum : ℤ → Datum) (raw : String) :
    FdwResult Datum :=
  match parseSigned bits raw with
  | none => .error (.schemaMismatch ("'" ++ raw ++ "' is not " ++ typeName))
  | some v =>
    if v < 0 then
      .error (.schemaMismatch ("negative partition value '" ++ raw ++ "' not supported in v1"))
    else .ok (intoDatum v)

theorem parseIntDatum_eq_ok {typeName : String} {bits : ℕ} {intoDatum : ℤ → Datum} {raw : String}
    {d : Datum} (h : parseIntDatum typeName bits intoDatum raw = .ok d) :
    ∃ v, parseSigned bits raw = some v ∧ 0 ≤ v ∧ d = intoDatum v := by
  unfold parseIntDatum at h
  split at h
  · cases h
  · rename_i v hv
    split_ifs at h with hneg
    exact ⟨v, hv, not_lt.mp hneg, (Except.ok.inj h).symm⟩

/-- `parse_text_to_datum`. -/
def parseTextToDatum (ext : Externals) : PgPartitionType → String → FdwResult Datum
  | .int2, raw => parseIntDatum "int2" 16 (fun v => .int2 (Int16.ofInt v)) raw
  | .int4, raw => parseIntDatum "int4" 32 (fun v => .int4 (Int32.ofInt v)) raw
  | .int8, raw => parseIntDatum "int8" 64 (fun v => .int8 (Int64.ofInt v)) raw
  | .text, raw => .ok (.text raw)
  | .date, raw =>
    match ext.parseYmd raw with
    | .error e => .error (.schemaMismatch ("date '" ++ raw ++ "' parse failed: " ++ e))
    | .ok days =>
      match int32OfInt? days with
      | none => .error (.schemaMismatch ("date '" ++ raw ++ "' out of i32 range"))
      | some pgDays =>
        match ext.checkDate pgDays with
        | .error e => .error (.schemaMismatch ("date '" ++ raw ++ "' invalid: " ++ e))
        | .ok _ => .ok (.date pgDays)

theorem parseTextToDatum_date_eq_ok {ext : Externals} {raw : String} {d : Datum}
    (h : parseTextToDatum ext .date raw = .ok d) :
    ∃ pgDays : Int32, d = .date pgDays ∧ ext.parseYmd raw = .ok pgDays.toInt := by
  rw [parseTextToDatum] at h
  split at h
  · cases h
  · rename_i days hparse
    split at h
    · cases h
    · rename_i pgDays hdays
      split at h
      · cases h
      · exact ⟨pgDays, (Except.ok.inj h).symm, by rw [hparse, int32OfInt?_eq_some hdays]⟩

/-- The width of an integer key. -/
def PgPartitionType.bits : PgPartitionType → Option ℕ
  | .int2 => some 16
  | .int4 => some 32
  | .int8 => some 64
  | .text | .date => none

/-- **An integer key reads the numbers that fit and are not negative.** -/
theorem parseTextToDatum_int_iff {ext : Externals} {ty : PgPartitionType} {raw : String} {v : ℤ} :
    (∃ d, parseTextToDatum ext ty raw = .ok d ∧ d.int? = some v) ↔
      0 ≤ v ∧ ∃ bits, ty.bits = some bits ∧ parseSigned bits raw = some v := by
  have hint : ∀ (typeName : String) (bits : ℕ) (intoDatum : ℤ → Datum),
      (∀ w, -2 ^ (bits - 1) ≤ w → w < 2 ^ (bits - 1) → (intoDatum w).int? = some w) →
      ((∃ d, parseIntDatum typeName bits intoDatum raw = .ok d ∧ d.int? = some v) ↔
        0 ≤ v ∧ parseSigned bits raw = some v) := by
    intro typeName bits intoDatum hinto
    constructor
    · rintro ⟨d, hd, hv⟩
      obtain ⟨w, hw, hpos, rfl⟩ := parseIntDatum_eq_ok hd
      obtain ⟨-, hlow, hhigh⟩ := parseSigned_eq_some.mp hw
      obtain rfl := Option.some.inj ((hinto w hlow hhigh).symm.trans hv)
      exact ⟨hpos, hw⟩
    · rintro ⟨hpos, hv⟩
      obtain ⟨-, hlow, hhigh⟩ := parseSigned_eq_some.mp hv
      refine ⟨intoDatum v, ?_, hinto v hlow hhigh⟩
      simp [parseIntDatum, hv, not_lt.mpr hpos]
  cases ty with
  | int2 =>
    have h := hint "int2" 16 (fun v => .int2 (Int16.ofInt v)) fun w hlow hhigh =>
      congrArg some (Int16.toInt_ofInt_of_le hlow hhigh)
    simpa [parseTextToDatum, PgPartitionType.bits] using h
  | int4 =>
    have h := hint "int4" 32 (fun v => .int4 (Int32.ofInt v)) fun w hlow hhigh =>
      congrArg some (Int32.toInt_ofInt_of_le hlow hhigh)
    simpa [parseTextToDatum, PgPartitionType.bits] using h
  | int8 =>
    have h := hint "int8" 64 (fun v => .int8 (Int64.ofInt v)) fun w hlow hhigh =>
      congrArg some (Int64.toInt_ofInt_of_le hlow hhigh)
    simpa [parseTextToDatum, PgPartitionType.bits] using h
  | text => simp [parseTextToDatum, PgPartitionType.bits, Datum.int?]
  | date =>
    simp only [PgPartitionType.bits, reduceCtorEq, false_and, exists_false, and_false, iff_false]
    rintro ⟨d, hd, hv⟩
    obtain ⟨days, rfl, -⟩ := parseTextToDatum_date_eq_ok hd
    cases hv

/-- A text is cast to itself, and only by the key type `text`. -/
theorem parseTextToDatum_eq_text {ext : Externals} {ty : PgPartitionType} {raw v : String}
    (h : parseTextToDatum ext ty raw = .ok (.text v)) : v = raw := by
  cases ty with
  | int2 | int4 | int8 =>
    obtain ⟨w, -, -, hw⟩ := parseIntDatum_eq_ok h
    cases hw
  | text => exact (Datum.text.inj (Except.ok.inj h)).symm
  | date =>
    obtain ⟨days, hdays, -⟩ := parseTextToDatum_date_eq_ok h
    cases hdays

/-- A date is one that chrono parses. -/
theorem parseTextToDatum_eq_date {ext : Externals} {ty : PgPartitionType} {raw : String}
    {pgDays : Int32} (h : parseTextToDatum ext ty raw = .ok (.date pgDays)) :
    ext.parseYmd raw = .ok pgDays.toInt := by
  cases ty with
  | int2 | int4 | int8 =>
    obtain ⟨w, -, -, hw⟩ := parseIntDatum_eq_ok h
    cases hw
  | text => cases h
  | date =>
    obtain ⟨days, hdays, hparse⟩ := parseTextToDatum_date_eq_ok h
    rw [Datum.date.inj hdays]
    exact hparse

/-- A chrono that parses the fifth of January 2024 and nothing else. -/
def twoDays : Externals :=
  { Externals.permissive with
    parseYmd := fun raw => if raw = "2024-01-05" then .ok 8770 else .error "premature end of input" }

/-- What the scan does with a blob's path: the datums of the declared keys, or the
text of the `NOTICE` with which it skips the blob. -/
abbrev PathRead := Except String (List Datum)

/-- The loop of `next_row` over the declared keys. -/
def castKeys (ext : Externals) (blob : String) (parsed : List (String × String)) :
    List (String × PgPartitionType) → Outcome PathRead
  | [] => .ok (.ok [])
  | (key, ty) :: rest =>
    match parsed.lookup key with
    | none => .error (.panic "partition_values_from_path validated presence")
    | some raw =>
      match parseTextToDatum ext ty raw with
      | .error e =>
        .ok (.error ("skipping blob '" ++ blob ++ "': partition cast failed for '" ++ key ++ "': " ++
          e.display))
      | .ok d => do
        let read ← castKeys ext blob parsed rest
        return (d :: ·) <$> read

/-- The part of `next_row` that reads the path of a blob of a partitioned table. -/
def partitionDatums (ext : Externals) (declared : List (String × PgPartitionType))
    (blob : String) : Outcome PathRead :=
  match partitionValuesFromPath blob declared with
  | .error e => .ok (.error ("skipping blob '" ++ blob ++ "': " ++ e.display))
  | .ok parsed => castKeys ext blob parsed declared

/-! ### What is accepted -/

section Accepted

variable {blobName : String} {declared : List (String × PgPartitionType)}

/-- A value as the parser accepts it. -/
def WellFormedValue (value : String) : Prop := value ≠ "" ∧ '%' ∉ value.toList

/-- The entry that a segment of the path makes: a declared key and its value. -/
def segmentEntry (declared : List (String × PgPartitionType)) (segment : List Char) :
    Option (String × String) := do
  let (key, value) ← splitOnce '=' segment
  let (name, _) ← declared.find? fun d => eqIgnoreAsciiCase d.1.toList key
  return (name, String.ofList value)

theorem lookup_isSome_iff {α β : Type} [BEq α] [LawfulBEq α] {found : List (α × β)} {name : α} :
    (found.lookup name).isSome = true ↔ name ∈ found.map Prod.fst := by
  rw [List.lookup_isSome_iff, List.mem_map]
  exact exists_congr fun e => and_congr_right fun _ =>
    ⟨fun h => (eq_of_beq h).symm, fun h => by simp [h]⟩

/-- A segment is skipped, or adds its entry when that is well formed and new. -/
theorem readSegment_eq_ok_iff {found found' : List (String × String)} {segment : List Char} :
    readSegment blobName declared found segment = .ok found' ↔
      found' = found ++ (segmentEntry declared segment).toList ∧
        ∀ e, segmentEntry declared segment = some e →
          WellFormedValue e.2 ∧ e.1 ∉ found.map Prod.fst := by
  unfold readSegment segmentEntry
  cases hsplit : splitOnce '=' segment with
  | none => simp [eq_comm]
  | some kv =>
    obtain ⟨key, value⟩ := kv
    cases hfind : declared.find? fun d => eqIgnoreAsciiCase d.1.toList key with
    | none => simp [hfind, eq_comm]
    | some d =>
      obtain ⟨name, ty⟩ := d
      have hempty : String.ofList value = "" ↔ value.isEmpty = true := by
        rw [List.isEmpty_iff]
        exact ⟨fun h => by simpa using congrArg String.toList h, fun h => by rw [h]⟩
      simp only [hfind, Option.bind_eq_bind, Option.bind_some, Option.pure_def, Option.toList_some,
        Option.some.injEq, forall_eq']
      split_ifs with hnil hpercent hdup
      · simp [WellFormedValue, hempty, hnil]
      · have hmem : '%' ∈ value := by simpa using hpercent
        simp [WellFormedValue, hmem]
      · simp [lookup_isSome_iff.mp hdup]
      · have hnew : name ∉ found.map Prod.fst := fun h => hdup (lookup_isSome_iff.mpr h)
        have hformed : WellFormedValue (String.ofList value) :=
          ⟨fun h => hnil (hempty.mp h), by simpa using hpercent⟩
        simp [hformed, hnew, eq_comm]

/-- The loop over the segments collects their entries, well formed and each of its own key. -/
theorem foldlM_readSegment_eq_ok_iff {segments : List (List Char)}
    {found found' : List (String × String)} (hfound : (found.map Prod.fst).Nodup) :
    segments.foldlM (readSegment blobName declared) found = .ok found' ↔
      found' = found ++ segments.filterMap (segmentEntry declared) ∧
        (∀ e ∈ segments.filterMap (segmentEntry declared), WellFormedValue e.2) ∧
        (found'.map Prod.fst).Nodup := by
  induction segments generalizing found with
  | nil =>
    simp only [List.foldlM_nil, List.filterMap_nil, List.append_nil, List.not_mem_nil,
      false_implies, implies_true, true_and]
    constructor
    · intro h
      obtain rfl := Except.ok.inj h
      exact ⟨rfl, hfound⟩
    · rintro ⟨rfl, -⟩
      rfl
  | cons segment segments ih =>
    rw [List.foldlM_cons, except_bind_eq_ok]
    cases hentry : segmentEntry declared segment with
    | none =>
      simp only [readSegment_eq_ok_iff, hentry, List.filterMap_cons, Option.toList_none,
        List.append_nil, reduceCtorEq, false_implies, implies_true, and_true, exists_eq_left]
      exact ih hfound
    | some e =>
      simp only [readSegment_eq_ok_iff, hentry, List.filterMap_cons, Option.toList_some,
        Option.some.injEq, forall_eq']
      constructor
      · rintro ⟨found₁, ⟨rfl, hformed, hnew⟩, h⟩
        have hnodup : ((found ++ [e]).map Prod.fst).Nodup := by
          rw [List.map_append, List.map_singleton, ← List.concat_eq_append]
          exact hfound.concat hnew
        obtain ⟨rfl, hwf, hnodup'⟩ := (ih hnodup).mp h
        exact ⟨by simp, List.forall_mem_cons.mpr ⟨hformed, hwf⟩, hnodup'⟩
      · rintro ⟨rfl, hwf, hnodup'⟩
        obtain ⟨hformed, hwf⟩ := List.forall_mem_cons.mp hwf
        have hsplit : found ++ e :: segments.filterMap (segmentEntry declared) =
            found ++ [e] ++ segments.filterMap (segmentEntry declared) := by simp
        have hnodup : ((found ++ [e]).map Prod.fst).Nodup := by
          rw [hsplit, List.map_append] at hnodup'
          exact hnodup'.of_append_left
        have hnew : e.1 ∉ found.map Prod.fst := by
          rw [List.map_append, List.map_singleton] at hnodup
          exact fun h => List.disjoint_of_nodup_append hnodup h (by simp)
        exact ⟨_, ⟨rfl, hformed, hnew⟩, (ih hnodup).mpr ⟨hsplit, hwf, hnodup'⟩⟩

/-- **What the parser accepts:** the entries of the path are well formed, of distinct keys, and
there is one for every declared key. -/
theorem partitionValuesFromPath_eq_ok_iff {found : List (String × String)} :
    partitionValuesFromPath blobName declared = .ok found ↔
      found = (blobName.toList.splitOn '/').filterMap (segmentEntry declared) ∧
        (∀ e ∈ found, WellFormedValue e.2) ∧ (found.map Prod.fst).Nodup ∧
        ∀ d ∈ declared, d.1 ∈ found.map Prod.fst := by
  have hrequire : ∀ found : List (String × String),
      (∃ units, declared.mapM (fun d => requireKey blobName found d.1) = .ok units) ↔
        ∀ d ∈ declared, d.1 ∈ found.map Prod.fst := by
    intro found
    have hkey : ∀ name, (∃ u, requireKey blobName found name = .ok u) ↔
        name ∈ found.map Prod.fst := by
      intro name
      rw [requireKey, ← lookup_isSome_iff]
      split_ifs with h <;> simp [h]
    have hall := exists_mapM_eq_ok_iff (f := fun d : String × PgPartitionType =>
      requireKey blobName found d.1) (Q := fun _ => True) (l := declared)
    simpa [hkey] using hall
  have hnil : (([] : List (String × String)).map Prod.fst).Nodup := List.nodup_nil
  unfold partitionValuesFromPath
  rw [except_bind_eq_ok]
  simp only [except_bind_eq_ok]
  constructor
  · rintro ⟨found', hfold, units, hunits, h⟩
    obtain rfl : found' = found := Except.ok.inj h
    obtain ⟨hentries, hwf, hnodup⟩ := (foldlM_readSegment_eq_ok_iff hnil).mp hfold
    rw [List.nil_append] at hentries
    exact ⟨hentries, hentries ▸ hwf, hnodup, (hrequire _).mp ⟨units, hunits⟩⟩
  · rintro ⟨hentries, hwf, hnodup, hkeys⟩
    obtain ⟨units, hunits⟩ := (hrequire found).mpr hkeys
    exact ⟨found, (foldlM_readSegment_eq_ok_iff hnil).mpr
      ⟨hentries, hentries ▸ hwf, hnodup⟩, units, hunits, rfl⟩

theorem castKeys_ok (ext : Externals) (blob : String) {parsed : List (String × String)}
    {keys : List (String × PgPartitionType)} (h : ∀ d ∈ keys, (parsed.lookup d.1).isSome) :
    ∃ read, castKeys ext blob parsed keys = .ok read := by
  induction keys with
  | nil => exact ⟨_, rfl⟩
  | cons d keys ih =>
    obtain ⟨raw, hraw⟩ := Option.isSome_iff_exists.mp (h d (by simp))
    obtain ⟨read, hread⟩ := ih fun d' hd' => h d' (by simp [hd'])
    rw [castKeys, hraw]
    cases hcast : parseTextToDatum ext d.2 raw with
    | error e => exact ⟨_, by simp only [hcast]; rfl⟩
    | ok datum => exact ⟨(datum :: ·) <$> read, by simp only [hcast, hread]; rfl⟩

/-- **The `expect` of the scan's loop is never reached.** -/
theorem partitionDatums_ok (ext : Externals) (declared : List (String × PgPartitionType))
    (blob : String) : ∃ read, partitionDatums ext declared blob = .ok read := by
  unfold partitionDatums
  cases h : partitionValuesFromPath blob declared with
  | error e => exact ⟨_, rfl⟩
  | ok parsed =>
    obtain ⟨-, -, -, hkeys⟩ := partitionValuesFromPath_eq_ok_iff.mp h
    exact castKeys_ok ext blob fun d hd => lookup_isSome_iff.mpr (hkeys d hd)

/-- Each key has the datum that its value casts to. -/
theorem castKeys_eq_ok {ext : Externals} {blob : String} {parsed : List (String × String)}
    {keys : List (String × PgPartitionType)} {datums : List Datum}
    (h : castKeys ext blob parsed keys = .ok (.ok datums)) :
    List.Forall₂ (fun key d => ∃ raw, parsed.lookup key.1 = some raw ∧
      parseTextToDatum ext key.2 raw = .ok d) keys datums := by
  induction keys generalizing datums with
  | nil =>
    obtain rfl := Except.ok.inj (Except.ok.inj h)
    exact .nil
  | cons d keys ih =>
    rw [castKeys] at h
    split at h
    · cases h
    · rename_i raw hraw
      split at h
      · cases Except.ok.inj h
      · rename_i datum hcast
        obtain ⟨read, hread, h⟩ := except_bind_eq_ok.mp h
        cases read with
        | error e => cases Except.ok.inj h
        | ok rest =>
          obtain rfl := Except.ok.inj (Except.ok.inj h)
          exact .cons ⟨raw, hraw, hcast⟩ (ih hread)

/-- The path of a blob that is not skipped has been read, and the value of every key cast. -/
theorem partitionDatums_eq_ok {ext : Externals} {blob : String} {datums : List Datum}
    (h : partitionDatums ext declared blob = .ok (.ok datums)) :
    ∃ parsed, partitionValuesFromPath blob declared = .ok parsed ∧
      List.Forall₂ (fun key d => ∃ raw, parsed.lookup key.1 = some raw ∧
        parseTextToDatum ext key.2 raw = .ok d) declared datums := by
  unfold partitionDatums at h
  split at h
  · cases Except.ok.inj h
  · exact ⟨_, ‹_›, castKeys_eq_ok h⟩

/-- A blob that is not skipped has a datum for each declared key. -/
theorem partitionDatums_length {ext : Externals} {blob : String} {datums : List Datum}
    (h : partitionDatums ext declared blob = .ok (.ok datums)) :
    datums.length = declared.length := by
  obtain ⟨parsed, -, hcast⟩ := partitionDatums_eq_ok h
  exact hcast.length_eq.symm

/-! Two declared keys with one name, ignoring case, are the same key on a path that is read: a
segment is given to the first of them. -/

/-- The name is that of the first declared key it matches. -/
def FirstDeclared (declared : List (String × PgPartitionType)) (name : String) : Prop :=
  ∃ ty, declared.find? (fun d => eqIgnoreAsciiCase d.1.toList name.toList) = some (name, ty)

theorem eqIgnoreAsciiCase_iff {a b : List Char} :
    eqIgnoreAsciiCase a b = true ↔ a.map Char.toLower = b.map Char.toLower := by
  simp [eqIgnoreAsciiCase]

/-- Names that match are matched by the same keys. -/
theorem eqIgnoreAsciiCase_congr {a b : List Char} (h : eqIgnoreAsciiCase a b = true)
    (c : List Char) : eqIgnoreAsciiCase c a = eqIgnoreAsciiCase c b := by
  rw [eqIgnoreAsciiCase, eqIgnoreAsciiCase, eqIgnoreAsciiCase_iff.mp h]

theorem segmentEntry_firstDeclared {segment : List Char} {e : String × String}
    (h : segmentEntry declared segment = some e) : FirstDeclared declared e.1 := by
  obtain ⟨⟨key, value⟩, -, h⟩ := Option.bind_eq_some_iff.mp h
  obtain ⟨⟨name, ty⟩, hfind, h⟩ := Option.bind_eq_some_iff.mp h
  obtain rfl := Option.some.inj h
  have hmatch : eqIgnoreAsciiCase name.toList key = true := by simpa using List.find?_some hfind
  refine ⟨ty, ?_⟩
  simp only [eqIgnoreAsciiCase_congr hmatch]
  exact hfind

/-- **Names that match and both have a value are one name.** -/
theorem name_eq_of_lookup {found : List (String × String)} {name name' raw raw' : String}
    (h : partitionValuesFromPath blobName declared = .ok found)
    (hname : found.lookup name = some raw) (hname' : found.lookup name' = some raw')
    (hmatch : eqIgnoreAsciiCase name.toList name'.toList = true) : name = name' := by
  have hfirst : ∀ {k v : String}, found.lookup k = some v → FirstDeclared declared k := by
    intro k v hk
    obtain ⟨hentries, -⟩ := partitionValuesFromPath_eq_ok_iff.mp h
    have hmem : (k, v) ∈ found := by
      obtain ⟨l₁, l₂, rfl, -⟩ := List.lookup_eq_some_iff.mp hk
      simp
    rw [hentries] at hmem
    obtain ⟨segment, -, hsegment⟩ := List.mem_filterMap.mp hmem
    exact segmentEntry_firstDeclared hsegment
  obtain ⟨ty, hfind⟩ := hfirst hname
  obtain ⟨ty', hfind'⟩ := hfirst hname'
  simp only [eqIgnoreAsciiCase_congr hmatch] at hfind
  exact (Prod.mk.inj (Option.some.inj (hfind.symm.trans hfind'))).1

end Accepted

/-- A path is read by its declared keys, whatever their case, and other segments are ignored. -/
example : partitionDatums .permissive [("year", .int4), ("region", .text)]
    "t/Region=eu/YEAR=2024/x=1/part.parquet" = .ok (.ok [.int4 2024, .text "eu"]) := by
  decide

end ParquetAzureFdw
