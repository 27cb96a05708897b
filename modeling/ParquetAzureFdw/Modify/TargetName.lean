/-
# The names of written blobs

`pick_target_layout` and `compute_target_name` of `src/fdw/modify/insert.rs`, and
`generate_blob_name` of `src/azure/writer.rs`.  The name of a group's blob is a path
below the base prefix of the table: `key=value` for each partition value, and a file
name made of the time and a UUID (`computeTargetName_toList`).

Reading the values back from the name gives what was written exactly when the base
prefix has no segment of a declared key, and every value is one that the reader accepts
for the declared type (`partition_path_round_trip_iff`).  The reader refuses a percent
sign; the writer does not.
-/

import ParquetAzureFdw.Lib.Paths
import ParquetAzureFdw.Modify.Insert

namespace ParquetAzureFdw

open Paths

/-- `trim_end_matches('/')`. -/
def trimEndSlashes (s : String) : String := String.ofList (s.toList.rdropWhile (· == '/'))

/-- The text before the last slash. -/
def dirname (filename : String) : String :=
  match splitOnce '/' filename.toList.reverse with
  | some (_, dir) => String.ofList dir.reverse
  | none => ""

/-- `pick_target_layout`: the base prefix, and the literal name of a table without `*`. -/
def pickTargetLayout (filename : String) : String × Option String :=
  match splitOnce '*' filename.toList with
  | some (before, _) => (trimEndSlashes (String.ofList before), none)
  | none => (dirname filename, some filename)

/-- The characters of a time as `%Y%m%dT%H%M%S%.3fZ` and of a UUID. -/
def isStampChar (c : Char) : Bool := c.isDigit || "abcdefTZ.-+".toList.contains c

/-- The time and the UUID of a generated name. -/
structure Stamp where
  ts : String
  id : String
  plain : ∀ c ∈ ts.toList ++ id.toList, isStampChar c = true

/-- The file name that a stamp makes. -/
def Stamp.file (stamp : Stamp) : String := stamp.ts ++ "-" ++ stamp.id ++ ".parquet"

/-- `generate_blob_name`. -/
def generateBlobName (stamp : Stamp) (path : String) : String :=
  let trimmed := trimEndSlashes path
  if trimmed.isEmpty then stamp.file else trimmed ++ "/" ++ stamp.file

/-- The segment of the `i`-th partition value. -/
def partitionSegment (declared : List (String × PgPartitionType)) (value : String × ℕ) : String :=
  ((declared[value.2]?).map Prod.fst).getD "p" ++ "=" ++ value.1

/-- One turn of the loop of `compute_target_name`. -/
def pushPartition (declared : List (String × PgPartitionType)) (path : String)
    (value : String × ℕ) : String :=
  let path := if !path.isEmpty && path.toList.getLast? != some '/' then path ++ "/" else path
  path ++ partitionSegment declared value

/-- `compute_target_name`. -/
def computeTargetName (basePrefix : String) (legacySingleTarget : Option String)
    (declared : List (String × PgPartitionType)) (stamp : Stamp) (values : List String) : String :=
  if values.isEmpty then
    match legacySingleTarget with
    | some literal => literal
    | none => generateBlobName stamp basePrefix
  else generateBlobName stamp (values.zipIdx.foldl (pushPartition declared) basePrefix)

/-! ### The path of a name -/

/-- The segments below the base prefix. -/
def targetSegments (declared : List (String × PgPartitionType)) (stamp : Stamp)
    (values : List String) : List (List Char) :=
  values.zipIdx.map (fun v => (partitionSegment declared v).toList) ++ [stamp.file.toList]

section Path

variable {declared : List (String × PgPartitionType)} {stamp : Stamp}

theorem pushPartition_toList (path : String) (value : String × ℕ) :
    (pushPartition declared path value).toList =
      under '/' path.toList (partitionSegment declared value).toList := by
  unfold pushPartition under
  by_cases hempty : path = ""
  · simp [hempty]
  · by_cases hlast : path.toList.getLast? = some '/' <;> simp [hempty, hlast]

theorem generateBlobName_toList {path : String} (hlast : path.toList.getLast? ≠ some '/') :
    (generateBlobName stamp path).toList = under '/' path.toList stamp.file.toList := by
  have htrim : trimEndSlashes path = path := by
    have hself : path.toList.rdropWhile (· == '/') = path.toList :=
      List.rdropWhile_eq_self_iff.mpr fun hne hc => hlast <| by
        rw [List.getLast?_eq_some_getLast hne, eq_of_beq hc]
    rw [trimEndSlashes, hself, String.ofList_toList]
  rw [generateBlobName, htrim, under]
  by_cases hempty : path = "" <;> simp [hempty, hlast]

/-- The segment of a value with no slash ends in none. -/
theorem partitionSegment_proper {value : String × ℕ} (hvalue : '/' ∉ value.1.toList) :
    Proper '/' (partitionSegment declared value).toList := by
  unfold Proper partitionSegment
  rw [String.toList_append, String.toList_append]
  refine ⟨by simp, fun hlast => hvalue ?_⟩
  by_cases hempty : value.1.toList = []
  · simp [hempty] at hlast
  · rw [List.getLast?_append_of_ne_nil _ hempty] at hlast
    exact List.mem_of_getLast? hlast

/-- **The name is a path below the base prefix:** the segment of each value, and the file. -/
theorem computeTargetName_toList {basePrefix : String} {legacy : Option String}
    {values : List String} (hvalues : ∀ v ∈ values, '/' ∉ v.toList)
    (hgenerated : values = [] → legacy = none ∧ basePrefix.toList.getLast? ≠ some '/') :
    (computeTargetName basePrefix legacy declared stamp values).toList =
      under '/' basePrefix.toList (['/'].intercalate (targetSegments declared stamp values)) := by
  have hname : computeTargetName basePrefix legacy declared stamp values =
      generateBlobName stamp (values.zipIdx.foldl (pushPartition declared) basePrefix) := by
    unfold computeTargetName
    cases values with
    | nil => simp [hgenerated rfl]
    | cons => rw [List.isEmpty_cons, if_neg Bool.false_ne_true]
  have hfold : (values.zipIdx.foldl (pushPartition declared) basePrefix).toList =
      (values.zipIdx.map fun v => (partitionSegment declared v).toList).foldl (under '/')
        basePrefix.toList := by
    rw [List.foldl_map]
    exact (List.foldl_hom String.toList fun path value => (pushPartition_toList path value).symm).symm
  have hproper : ∀ s ∈ values.zipIdx.map (fun v => (partitionSegment declared v).toList),
      Proper '/' s := by
    intro s hs
    obtain ⟨v, hv, rfl⟩ := List.mem_map.mp hs
    exact partitionSegment_proper (hvalues _ (List.fst_mem_of_mem_zipIdx hv))
  rw [hname, generateBlobName_toList, hfold, under_foldl_under hproper, targetSegments]
  rw [hfold]
  exact getLast?_foldl_under hproper fun hnil => (hgenerated (by simpa using hnil)).2

end Path

/-! ### The texts of partition values -/

/-- The text of a date as `%Y-%m-%d` is made of digits, dashes and a sign. -/
structure PlainDates (formatPgDays : Int32 → Option String) : Prop where
  ne_empty : ∀ v text, formatPgDays v = some text → text ≠ ""
  plain : ∀ v text, formatPgDays v = some text →
    ∀ c ∈ text.toList, c.isDigit = true ∨ c = '-' ∨ c = '+'

/-- What chrono documents of `%Y-%m-%d`: the text is also parsed back. -/
structure ChronoDates (ext : Externals) (formatPgDays : Int32 → Option String) : Prop
    extends PlainDates formatPgDays where
  parse_format : ∀ v text, formatPgDays v = some text → ext.parseYmd text = .ok v.toInt

section Texts

variable {formatPgDays : Int32 → Option String} {oid : Oid} {d : Datum} {text : String}

/-- A partition value is a number, a date or a text. -/
theorem datumToPartitionString_eq_ok (h : datumToPartitionString formatPgDays oid d = .ok text) :
    (∃ v, d.int? = some v ∧ 0 ≤ v ∧ text = toString v) ∨
      (∃ v, d = .date v ∧ formatPgDays v = some text) ∨
      d = .text text ∧ text ≠ "" ∧ '/' ∉ text.toList ∧ '=' ∉ text.toList := by
  have hint : ∀ {v : ℤ}, intPartitionString v = .ok text → 0 ≤ v ∧ text = toString v := by
    intro v h
    unfold intPartitionString at h
    split_ifs at h with hneg
    exact ⟨not_lt.mp hneg, (Except.ok.inj h).symm⟩
  cases d with
  | int2 v | int4 v | int8 v =>
    rw [datumToPartitionString] at h
    split_ifs at h
    · exact .inl ⟨_, rfl, hint h⟩
    · cases h
  | date v =>
    rw [datumToPartitionString] at h
    split_ifs at h
    · split at h
      · rename_i t ht
        exact .inr (.inl ⟨v, rfl, by rw [ht, Except.ok.inj h]⟩)
      · cases h
    · cases h
  | text v =>
    rw [datumToPartitionString] at h
    split_ifs at h
    · unfold textPartitionString at h
      split_ifs at h with hempty hslash hdots
      obtain rfl := Except.ok.inj h
      refine .inr (.inr ⟨rfl, by simpa using hempty, ?_⟩)
      simpa using hslash
    · cases h
  | _ => cases h

variable {ext : Externals} {ty : PgPartitionType}

/-- What the writer puts into the path: not empty, and with no character of the path's
grammar. -/
structure WrittenText (text : String) : Prop where
  ne_empty : text ≠ ""
  no_slash : '/' ∉ text.toList
  no_equals : '=' ∉ text.toList

/-- Digits, dashes and signs are no characters of the path's grammar. -/
theorem not_mem_of_plain {cs : List Char} {c : Char}
    (hcs : ∀ c ∈ cs, c.isDigit = true ∨ c = '-' ∨ c = '+')
    (hc : ¬ (c.isDigit = true ∨ c = '-' ∨ c = '+')) : c ∉ cs :=
  fun h => hc (hcs c h)

/-- The text of a number or of a date. -/
theorem plain_of_partitionString (hdates : PlainDates formatPgDays)
    (h : datumToPartitionString formatPgDays oid d = .ok text) (hd : d ≠ .text text) :
    text ≠ "" ∧ ∀ c ∈ text.toList, c.isDigit = true ∨ c = '-' ∨ c = '+' := by
  rcases datumToPartitionString_eq_ok h with ⟨v, -, hv, rfl⟩ | ⟨v, -, hv⟩ | ⟨htext, -⟩
  · obtain ⟨n, rfl⟩ := Int.eq_ofNat_of_zero_le hv
    have hdigits : (toString (n : ℤ)).toList = Nat.toDigits 10 n := Nat.toList_repr
    refine ⟨fun h => ?_, fun c hc => ?_⟩
    · rw [h] at hdigits
      exact Nat.toDigits_ne_nil hdigits.symm
    · rw [hdigits] at hc
      exact .inl (Nat.isDigit_of_mem_toDigits (by decide) (by decide) hc)
  · exact ⟨hdates.ne_empty v text hv, hdates.plain v text hv⟩
  · exact absurd htext hd

theorem WrittenText.of_partitionString (hdates : PlainDates formatPgDays)
    (h : datumToPartitionString formatPgDays oid d = .ok text) : WrittenText text := by
  by_cases hd : d = .text text
  · subst hd
    rcases datumToPartitionString_eq_ok h with ⟨v, hv, -⟩ | ⟨v, hv, -⟩ | ⟨-, hempty, hslash, hequals⟩
    · cases hv
    · cases hv
    · exact ⟨hempty, hslash, hequals⟩
  · obtain ⟨hempty, hplain⟩ := plain_of_partitionString hdates h hd
    exact ⟨hempty, not_mem_of_plain hplain (by decide), not_mem_of_plain hplain (by decide)⟩

/-- The texts of the group that a tuple is routed to. -/
theorem WrittenText.of_appendSlot (hdates : PlainDates formatPgDays) {layout : InsertLayout}
    {tuple : Tuple} {values : List String} {row : ArrowRow}
    (h : appendSlot formatPgDays layout tuple = .ok (values, row)) : ∀ v ∈ values, WrittenText v := by
  obtain ⟨key, hkey, h⟩ := except_bind_eq_ok.mp h
  obtain ⟨cells, -, h⟩ := except_bind_eq_ok.mp h
  obtain ⟨rfl, -⟩ := Prod.mk.inj (Except.ok.inj h)
  intro v hv
  obtain ⟨i, hi⟩ := List.getElem?_of_mem hv
  obtain ⟨attno, -, hattno⟩ := forall₂_getElem? (mapM_eq_ok_iff.mp hkey).flip hi
  unfold partitionText at hattno
  split at hattno
  · cases hattno
  · exact .of_partitionString hdates hattno

/-- Two datums are one machine word: they are equal, or integers of one value. -/
def Datum.SameWord (d d' : Datum) : Prop := d = d' ∨ ∃ v, d.int? = some v ∧ d'.int? = some v

/-- The values that a declared type reads back: numbers of its width, texts with no percent
sign, dates. -/
def PgPartitionType.ReadsBack : PgPartitionType → Datum → Prop
  | .text, .text v => '%' ∉ v.toList
  | .date, .date _ => True
  | ty, d => ∃ bits v, ty.bits = some bits ∧ d.int? = some v ∧ v < 2 ^ (bits - 1)

theorem Datum.sameWord_iff_of_int {d d' : Datum} {v : ℤ} (hv : d.int? = some v) :
    d'.SameWord d ↔ d'.int? = some v := by
  constructor
  · rintro (rfl | ⟨w, hw, hw'⟩)
    · exact hv
    · rw [hw, ← hw', hv]
  · exact fun h => .inr ⟨v, h, hv⟩

theorem Datum.sameWord_iff_of_not_int {d d' : Datum} (hd : d.int? = none) :
    d'.SameWord d ↔ d' = d := by
  simp [Datum.SameWord, hd]

theorem PgPartitionType.readsBack_iff_of_int {v : ℤ} (hv : d.int? = some v) :
    ty.ReadsBack d ↔ ∃ bits, ty.bits = some bits ∧ v < 2 ^ (bits - 1) := by
  have hints : ty.ReadsBack d ↔ ∃ bits v, ty.bits = some bits ∧ d.int? = some v ∧
      v < 2 ^ (bits - 1) := by
    cases d <;> cases hv <;> cases ty <;> exact Iff.rfl
  rw [hints, hv]
  simp

/-- An integer key gives integers only. -/
theorem parseTextToDatum_int?_isSome {bits : ℕ} {d' : Datum} (hty : ty.bits = some bits)
    (h : parseTextToDatum ext ty text = .ok d') : d'.int?.isSome = true := by
  cases ty with
  | int2 | int4 | int8 =>
    obtain ⟨v, -, -, rfl⟩ := parseIntDatum_eq_ok h
    rfl
  | text | date => cases hty

/-- **A written value is read back exactly when its declared type reads it back.** -/
theorem reads_back_iff (hchrono : ChronoDates ext formatPgDays)
    (h : datumToPartitionString formatPgDays oid d = .ok text)
    (hdate : ∀ v, d = .date v → ext.checkDate v = .ok ()) :
    ('%' ∉ text.toList ∧ ∃ d', parseTextToDatum ext ty text = .ok d' ∧ d'.SameWord d) ↔
      ty.ReadsBack d := by
  have hplain : d ≠ .text text → '%' ∉ text.toList := fun hd =>
    not_mem_of_plain (plain_of_partitionString hchrono.toPlainDates h hd).2 (by decide)
  rcases datumToPartitionString_eq_ok h with ⟨v, hv, hpos, rfl⟩ | ⟨v, rfl, hv⟩ | ⟨rfl, -⟩
  · have hpercent := hplain (by rintro rfl; cases hv)
    have hlow : ∀ bits : ℕ, -2 ^ (bits - 1) ≤ v := fun bits =>
      (neg_nonpos.mpr (by positivity)).trans hpos
    have hparse : ∀ bits, parseSigned bits (toString v) = some v ↔ v < 2 ^ (bits - 1) := fun bits => by
      rw [parseSigned_eq_some, signedValue_toString]
      simp [hlow bits]
    simp only [Datum.sameWord_iff_of_int hv, parseTextToDatum_int_iff,
      PgPartitionType.readsBack_iff_of_int hv, hparse, and_iff_right hpercent, and_iff_right hpos]
  · have hpercent := hplain (by simp)
    simp only [Datum.sameWord_iff_of_not_int (d := .date v) rfl, exists_eq_right]
    cases ty with
    | date =>
      have hcast : parseTextToDatum ext .date text = .ok (.date v) := by
        simp [parseTextToDatum, hchrono.parse_format v text hv, int32OfInt?_toInt, hdate v rfl]
      simp [hpercent, hcast, PgPartitionType.ReadsBack]
    | text => simp [parseTextToDatum, PgPartitionType.ReadsBack, PgPartitionType.bits]
    | int2 | int4 | int8 =>
      refine iff_of_false (fun h => ?_) (by simp [PgPartitionType.ReadsBack, Datum.int?])
      cases parseTextToDatum_int?_isSome rfl h.2
  · simp only [Datum.sameWord_iff_of_not_int (d := .text text) rfl, exists_eq_right]
    cases ty with
    | text => simp [parseTextToDatum, PgPartitionType.ReadsBack]
    | date =>
      refine iff_of_false (fun h => ?_) (by simp [PgPartitionType.ReadsBack, Datum.int?])
      obtain ⟨days, hdays, -⟩ := parseTextToDatum_date_eq_ok h.2
      cases hdays
    | int2 | int4 | int8 =>
      refine iff_of_false (fun h => ?_) (by simp [PgPartitionType.ReadsBack, Datum.int?])
      cases parseTextToDatum_int?_isSome rfl h.2

end Texts

/-! ### The round trip -/

/-- Key names of one path: distinct ignoring case, and with no character of its grammar. -/
structure PathKeys (declared : List (String × PgPartitionType)) : Prop where
  distinct : declared.Pairwise fun d d' => eqIgnoreAsciiCase d.1.toList d'.1.toList = false
  plain : ∀ d ∈ declared, '/' ∉ d.1.toList ∧ '=' ∉ d.1.toList

/-- A segment `key=value` of a declared key. -/
def HasDeclaredKey (declared : List (String × PgPartitionType)) (segment : List Char) : Prop :=
  ∃ key value, splitOnce '=' segment = some (key, value) ∧
    ∃ d ∈ declared, eqIgnoreAsciiCase d.1.toList key = true

section RoundTrip

variable {declared : List (String × PgPartitionType)} {stamp : Stamp} {texts : List String}

theorem segmentEntry_eq_none_iff {segment : List Char} :
    segmentEntry declared segment = none ↔ ¬ HasDeclaredKey declared segment := by
  unfold segmentEntry HasDeclaredKey
  cases splitOnce '=' segment with
  | none => simp
  | some kv =>
    obtain ⟨key, value⟩ := kv
    cases hfind : declared.find? fun d => eqIgnoreAsciiCase d.1.toList key with
    | none =>
      have hnone := List.find?_eq_none.mp hfind
      simpa [hfind] using hnone
    | some d =>
      have hmatch := List.find?_some hfind
      have hmem := List.mem_of_find?_eq_some hfind
      simpa [hfind] using ⟨d.1, ⟨d.2, hmem⟩, hmatch⟩

/-- A declared name is found at its own entry. -/
theorem PathKeys.find?_eq (hkeys : PathKeys declared) {d : String × PgPartitionType}
    (hd : d ∈ declared) :
    declared.find? (fun d' => eqIgnoreAsciiCase d'.1.toList d.1.toList) = some d := by
  obtain ⟨l₁, l₂, rfl⟩ := List.append_of_mem hd
  refine List.find?_eq_some_iff_append.mpr ⟨by simp [eqIgnoreAsciiCase], l₁, l₂, rfl, ?_⟩
  intro d' hd'
  rw [(List.pairwise_append.mp hkeys.distinct).2.2 d' hd' d (by simp)]
  rfl

/-- The file name of a stamp has no character of the path's grammar. -/
theorem Stamp.not_mem_file (stamp : Stamp) {c : Char} (hc : isStampChar c = false)
    (hplain : c ∉ "-.parquet".toList) : c ∉ stamp.file.toList := by
  intro h
  have hcases : c ∈ stamp.ts.toList ++ stamp.id.toList ∨ c ∈ "-.parquet".toList := by
    simp [Stamp.file] at h ⊢
    tauto
  rcases hcases with hstamp | hrest
  · rw [stamp.plain c hstamp] at hc
    cases hc
  · exact hplain hrest

/-- No segment of a written value has a slash. -/
theorem not_mem_targetSegments (hkeys : PathKeys declared) (hwritten : ∀ t ∈ texts, WrittenText t)
    {segment : List Char} (hsegment : segment ∈ targetSegments declared stamp texts) :
    '/' ∉ segment := by
  rcases List.mem_append.mp hsegment with h | h
  · obtain ⟨⟨text, i⟩, hv, rfl⟩ := List.mem_map.mp h
    have htext := (hwritten text (List.fst_mem_of_mem_zipIdx hv)).no_slash
    have hname : '/' ∉ (((declared[i]?).map Prod.fst).getD "p").toList := by
      cases hd : declared[i]? with
      | none => decide
      | some d => exact (hkeys.plain d (List.mem_of_getElem? hd)).1
    simp [partitionSegment, htext, hname]
  · rw [List.mem_singleton.mp h]
    exact stamp.not_mem_file (by decide) (by decide)

/-- The entries of the segments below the base prefix are the keys and their texts. -/
theorem filterMap_targetSegments (hkeys : PathKeys declared) (hlen : texts.length = declared.length) :
    (targetSegments declared stamp texts).filterMap (segmentEntry declared) =
      (declared.map Prod.fst).zip texts := by
  have hfile : segmentEntry declared stamp.file.toList = none := by
    have hequals : '=' ∉ stamp.file.toList := stamp.not_mem_file (by decide) (by decide)
    simp [segmentEntry, splitOnce_eq_none_iff.mpr hequals]
  have hentry : ∀ v ∈ texts.zipIdx, segmentEntry declared (partitionSegment declared v).toList =
      some (((declared[v.2]?).map Prod.fst).getD "p", v.1) := by
    rintro ⟨text, i⟩ hv
    obtain ⟨hi, -⟩ := List.mem_zipIdx' hv
    have hd : declared[i]? = some declared[i] := List.getElem?_eq_getElem (hlen ▸ hi)
    have hmem : declared[i] ∈ declared := List.mem_of_getElem? hd
    have hsplit : splitOnce '=' (partitionSegment declared (text, i)).toList =
        some (declared[i].1.toList, text.toList) := by
      refine splitOnce_eq_some_iff.mpr ⟨?_, (hkeys.plain _ hmem).2⟩
      simp [partitionSegment, hd]
    simp [segmentEntry, hsplit, hkeys.find?_eq hmem, hd]
  have hmap : texts.zipIdx.filterMap (segmentEntry declared ∘ fun v =>
      (partitionSegment declared v).toList) =
      texts.zipIdx.map fun v => (((declared[v.2]?).map Prod.fst).getD "p", v.1) := by
    rw [← List.filterMap_eq_map]
    exact List.filterMap_congr hentry
  have hnil : [stamp.file.toList].filterMap (segmentEntry declared) = [] := by simp [hfile]
  rw [targetSegments, List.filterMap_append, List.filterMap_map, hmap, hnil, List.append_nil]
  refine List.ext_getElem (by simp [hlen]) fun i hi hi' => ?_
  have hd : i < declared.length := by simpa [hlen] using hi
  simp [List.getElem?_eq_getElem hd]

/-- The path of a blob carries the texts of its group. -/
theorem entries_computeTargetName (hkeys : PathKeys declared) (hlen : texts.length = declared.length)
    (hwritten : ∀ t ∈ texts, WrittenText t) (basePrefix : String) (legacy : Option String) :
    ((computeTargetName basePrefix legacy declared stamp texts).toList.splitOn '/').filterMap
        (segmentEntry declared) =
      (basePrefix.toList.splitOn '/').filterMap (segmentEntry declared) ++
        (declared.map Prod.fst).zip texts := by
  by_cases htexts : texts = []
  · obtain rfl : declared = [] := List.length_eq_zero_iff.mp (by rw [← hlen, htexts]; rfl)
    have hnone : ∀ segment, segmentEntry [] segment = none := fun segment =>
      segmentEntry_eq_none_iff.mpr (by simp [HasDeclaredKey])
    simp [hnone]
  · have hslash : ∀ segment ∈ targetSegments declared stamp texts, '/' ∉ segment :=
      fun segment => not_mem_targetSegments hkeys hwritten
    rw [computeTargetName_toList (fun t ht => (hwritten t ht).no_slash) (fun h => absurd h htexts),
      filterMap_splitOn_under rfl, List.splitOn_intercalate _ hslash (by simp [targetSegments]),
      filterMap_targetSegments hkeys hlen]

/-- **The parser reads the written texts back exactly when the base prefix has no segment of a
declared key and every text is well formed.** -/
theorem partitionValuesFromPath_computeTargetName_iff (hkeys : PathKeys declared)
    (hlen : texts.length = declared.length) (hwritten : ∀ t ∈ texts, WrittenText t)
    (basePrefix : String) (legacy : Option String) :
    partitionValuesFromPath (computeTargetName basePrefix legacy declared stamp texts) declared =
        .ok ((declared.map Prod.fst).zip texts) ↔
      (∀ segment ∈ basePrefix.toList.splitOn '/', ¬ HasDeclaredKey declared segment) ∧
        ∀ t ∈ texts, '%' ∉ t.toList := by
  have hlen' : (declared.map Prod.fst).length = texts.length := by rw [List.length_map, hlen]
  have hfst : ((declared.map Prod.fst).zip texts).map Prod.fst = declared.map Prod.fst :=
    List.map_fst_zip hlen'.le
  have hsnd : ((declared.map Prod.fst).zip texts).map Prod.snd = texts :=
    List.map_snd_zip hlen'.ge
  have hnodup : (declared.map Prod.fst).Nodup := by
    refine List.pairwise_map.mpr (hkeys.distinct.imp fun hne heq => ?_)
    rw [heq] at hne
    simp [eqIgnoreAsciiCase] at hne
  have hformed : (∀ e ∈ (declared.map Prod.fst).zip texts, WellFormedValue e.2) ↔
      ∀ t ∈ texts, '%' ∉ t.toList := by
    have hmap : (∀ t ∈ ((declared.map Prod.fst).zip texts).map Prod.snd, WellFormedValue t) ↔
        ∀ e ∈ (declared.map Prod.fst).zip texts, WellFormedValue e.2 := List.forall_mem_map
    rw [← hmap, hsnd]
    exact forall₂_congr fun t ht => and_iff_right (hwritten t ht).ne_empty
  have hdeclared : ∀ d ∈ declared, d.1 ∈ declared.map Prod.fst := fun d hd =>
    List.mem_map.mpr ⟨d, hd, rfl⟩
  rw [partitionValuesFromPath_eq_ok_iff, entries_computeTargetName hkeys hlen hwritten,
    List.self_eq_append_left, hformed, hfst, List.filterMap_eq_nil_iff]
  simp only [segmentEntry_eq_none_iff]
  constructor
  · rintro ⟨hbase, htexts, -⟩
    exact ⟨hbase, htexts⟩
  · rintro ⟨hbase, htexts⟩
    exact ⟨hbase, htexts, hnodup, hdeclared⟩

/-- **Partition values make the round trip through the name exactly when the base prefix has no
segment of a declared key, and every declared type reads its value back.** -/
theorem partition_path_round_trip_iff {ext : Externals} {formatPgDays : Int32 → Option String}
    (hchrono : ChronoDates ext formatPgDays) (hkeys : PathKeys declared) (filename : String)
    (stamp : Stamp) {columns : List (Oid × Datum)} (hlen : columns.length = declared.length)
    (htexts : List.Forall₂ (fun c text => datumToPartitionString formatPgDays c.1 c.2 = .ok text)
      columns texts)
    (hdates : ∀ c ∈ columns, ∀ v, c.2 = .date v → ext.checkDate v = .ok ()) :
    (partitionValuesFromPath (computeTargetName (pickTargetLayout filename).1
          (pickTargetLayout filename).2 declared stamp texts) declared =
        .ok ((declared.map Prod.fst).zip texts) ∧
      ∀ (i : ℕ) (key : String × PgPartitionType) (c : Oid × Datum) (text : String),
        declared[i]? = some key → columns[i]? = some c → texts[i]? = some text →
        ∃ d, parseTextToDatum ext key.2 text = .ok d ∧ d.SameWord c.2) ↔
      (∀ segment ∈ (pickTargetLayout filename).1.toList.splitOn '/',
        ¬ HasDeclaredKey declared segment) ∧
      ∀ (i : ℕ) (key : String × PgPartitionType) (c : Oid × Datum),
        declared[i]? = some key → columns[i]? = some c → key.2.ReadsBack c.2 := by
  have hwritten : ∀ t ∈ texts, WrittenText t := by
    intro t ht
    obtain ⟨i, hi⟩ := List.getElem?_of_mem ht
    obtain ⟨c, -, hc⟩ := forall₂_getElem? htexts.flip hi
    exact .of_partitionString hchrono.toPlainDates hc
  rw [partitionValuesFromPath_computeTargetName_iff hkeys (htexts.length_eq.symm.trans hlen) hwritten,
    and_assoc]
  refine and_congr_right fun _ => ⟨?_, fun hreads => ⟨?_, ?_⟩⟩
  · rintro ⟨hpercent, hparse⟩ i key c hkey hc
    obtain ⟨text, htext, hspell⟩ := forall₂_getElem? htexts hc
    have hdate := hdates c (List.mem_of_getElem? hc)
    exact (reads_back_iff hchrono hspell hdate).mp
      ⟨hpercent text (List.mem_of_getElem? htext), hparse i key c text hkey hc htext⟩
  · intro t ht
    obtain ⟨i, hi⟩ := List.getElem?_of_mem ht
    obtain ⟨c, hc, hspell⟩ := forall₂_getElem? htexts.flip hi
    have hlt : i < declared.length := hlen ▸ (List.getElem?_eq_some_iff.mp hc).1
    have hdate := hdates c (List.mem_of_getElem? hc)
    exact ((reads_back_iff hchrono hspell hdate).mpr
      (hreads i _ c (List.getElem?_eq_getElem hlt) hc)).1
  · intro i key c text hkey hc htext
    obtain ⟨text', htext', hspell⟩ := forall₂_getElem? htexts hc
    obtain rfl := Option.some.inj (htext.symm.trans htext')
    have hdate := hdates c (List.mem_of_getElem? hc)
    exact ((reads_back_iff hchrono hspell hdate).mpr (hreads i key c hkey hc)).2

end RoundTrip

/-- A time and a UUID. -/
def someStamp : Stamp where
  ts := "20240105T101500.000Z"
  id := "0b9f6a2e-4c1d-4e8a-9f37-1d2c3b4a5e6f"
  plain := List.all_eq_true.mp (by decide)

/-- The keys of a table partitioned by day and region. -/
def dayAndRegion : List (String × PgPartitionType) := [("day", .date), ("region", .text)]

/-- The text of the fifth of January 2024. -/
def formatFifthOfJanuary (v : Int32) : Option String := if v = 8770 then some "2024-01-05" else none

theorem chronoDates_fifthOfJanuary : ChronoDates twoDays formatFifthOfJanuary := by
  have hcases : ∀ v text, formatFifthOfJanuary v = some text → v = 8770 ∧ text = "2024-01-05" := by
    intro v text h
    unfold formatFifthOfJanuary at h
    split_ifs at h with hv
    exact ⟨hv, (Option.some.inj h).symm⟩
  refine ⟨⟨?_, ?_⟩, ?_⟩ <;> intro v text h <;> obtain ⟨rfl, rfl⟩ := hcases v text h
  · decide
  · have hplain : "2024-01-05".toList.all fun c => c.isDigit || c == '-' || c == '+' := by
      decide
    simpa only [Bool.or_eq_true, beq_iff_eq, or_assoc] using List.all_eq_true.mp hplain
  · decide

/-- The fifth of January and the region `eu` make the round trip. -/
theorem day_and_region_round_trip :
    partitionValuesFromPath (computeTargetName "data" none dayAndRegion someStamp
        ["2024-01-05", "eu"]) dayAndRegion = .ok [("day", "2024-01-05"), ("region", "eu")] := by
  have hkeys : PathKeys dayAndRegion := ⟨by decide, by decide⟩
  have htexts : List.Forall₂ (fun c text =>
      datumToPartitionString formatFifthOfJanuary c.1 c.2 = .ok text)
      [(dateOid, .date 8770), (textOid, .text "eu")] ["2024-01-05", "eu"] :=
    .cons rfl (.cons rfl .nil)
  have hbase : ∀ segment ∈ (pickTargetLayout "data/*/*/*.parquet").1.toList.splitOn '/',
      ¬ HasDeclaredKey dayAndRegion segment := by
    have hsegments : (pickTargetLayout "data/*/*/*.parquet").1.toList.splitOn '/' =
        ["data".toList] := by decide
    rw [hsegments]
    rintro _ (_ | ⟨_, ⟨⟩⟩) ⟨key, value, hsplit, -⟩
    cases hsplit
  refine ((partition_path_round_trip_iff chronoDates_fifthOfJanuary hkeys "data/*/*/*.parquet"
    someStamp rfl htexts fun _ _ _ _ => rfl).mpr ⟨hbase, fun i key c hkey hc => ?_⟩).1
  match i, hkey, hc with
  | 0, rfl, rfl => trivial
  | 1, rfl, rfl =>
    show '%' ∉ "eu".toList
    decide

/-- A text with a percent sign is written, and the reader refuses its path. -/
theorem percent_text_not_read_back :
    datumToPartitionString (fun _ => none) textOid (.text "50%") = .ok "50%" ∧
      partitionValuesFromPath (computeTargetName (pickTargetLayout "data/*/*.parquet").1
          (pickTargetLayout "data/*/*.parquet").2 [("discount", .text)] someStamp ["50%"])
        [("discount", .text)] =
      .error (.schemaMismatch ("blob 'data/discount=50%/20240105T101500.000Z-" ++
        "0b9f6a2e-4c1d-4e8a-9f37-1d2c3b4a5e6f.parquet' partition 'discount' value contains " ++
        "percent — URL-encoded partition values are not supported in v1")) := by
  decide +kernel

end ParquetAzureFdw
