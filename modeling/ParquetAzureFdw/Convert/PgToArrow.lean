/-
# From Postgres datums to Arrow values

The write path: the Arrow type of a column of a given Postgres type
(`pg_oid_to_arrow_type` of `src/convert/pg_to_arrow.rs`) and the value appended to
its builder (`append_one` of `src/fdw/modify/insert.rs`).  What was appended is read
back as the datum it was (`arrowValueToDatum_appendOne`).

A type can be read from more than one Arrow type, and is written as one only
(`AcceptedPair.pgOidToArrowType_iff`).
-/

import ParquetAzureFdw.Convert.ArrowToPg

namespace ParquetAzureFdw

/-- `pg_oid_to_arrow_type`. -/
def pgOidToArrowType (oid : Oid) : FdwResult DataType :=
  if oid = boolOid then .ok .boolean
  else if oid = int2Oid then .ok .int16
  else if oid = int4Oid then .ok .int32
  else if oid = int8Oid then .ok .int64
  else if oid = float4Oid then .ok .float32
  else if oid = float8Oid then .ok .float64
  else if oid = textOid ∨ oid = varcharOid then .ok .utf8
  else if oid = byteaOid then .ok .binary
  else if oid = dateOid then .ok .date32
  else if oid = timestampOid then .ok (.timestamp .microsecond none)
  else if oid = timestamptzOid then .ok (.timestamp .microsecond (some "UTC"))
  else if oid = numericOid then .ok (.decimal128 38 9)
  else if oid = jsonbOid then .ok .utf8
  else .error (.unsupportedType ("oid=" ++ toString oid) "<none>")

/-- `append_one`, as the slot it appends to the column's builder.  A datum is of its
attribute's type, so the other pairs of type and datum do not occur. -/
def appendOne (oid : Oid) : Option Datum → FdwResult (Option ArrowValue)
  | none => .ok none
  | some (.bool v) => if oid = boolOid then .ok (some (.boolean v)) else unsupported
  | some (.int2 v) => if oid = int2Oid then .ok (some (.int16 v)) else unsupported
  | some (.int4 v) => if oid = int4Oid then .ok (some (.int32 v)) else unsupported
  | some (.int8 v) => if oid = int8Oid then .ok (some (.int64 v)) else unsupported
  | some (.float4 v) => if oid = float4Oid then .ok (some (.float32 v)) else unsupported
  | some (.float8 v) => if oid = float8Oid then .ok (some (.float64 v)) else unsupported
  | some (.text v) =>
    if oid = textOid ∨ oid = varcharOid then .ok (some (.utf8 v)) else unsupported
  | some _ => unsupported
where
  unsupported : FdwResult (Option ArrowValue) :=
    .error (.unsupportedType ("oid=" ++ toString oid ++ " (write path)") "<n/a>")

/-- The types that can be written, by the Arrow type of their column. -/
inductive Writable : Oid → DataType → Datum → ArrowValue → Prop
  | bool (v : Bool) : Writable boolOid .boolean (.bool v) (.boolean v)
  | int2 (v : Int16) : Writable int2Oid .int16 (.int2 v) (.int16 v)
  | int4 (v : Int32) : Writable int4Oid .int32 (.int4 v) (.int32 v)
  | int8 (v : Int64) : Writable int8Oid .int64 (.int8 v) (.int64 v)
  | float4 (v : UInt32) : Writable float4Oid .float32 (.float4 v) (.float32 v)
  | float8 (v : UInt64) : Writable float8Oid .float64 (.float8 v) (.float64 v)
  | text (v : String) : Writable textOid .utf8 (.text v) (.utf8 v)
  | varchar (v : String) : Writable varcharOid .utf8 (.text v) (.utf8 v)

theorem appendOne.eq_of_ite {oid : Oid} {p : Prop} [Decidable p] {a c : Option ArrowValue}
    (h : (if p then .ok a else appendOne.unsupported oid) = (.ok c : FdwResult _)) : p ∧ a = c := by
  split_ifs at h with hp
  · exact ⟨hp, Except.ok.inj h⟩
  · cases h

/-- What `append_one` accepts, against the type of the column. -/
theorem writable_of_appendOne {oid : Oid} {ty : DataType} {d : Datum} {c : Option ArrowValue}
    (hty : pgOidToArrowType oid = .ok ty) (h : appendOne oid (some d) = .ok c) :
    ∃ x, c = some x ∧ Writable oid ty d x := by
  have htype : ∀ t, pgOidToArrowType oid = .ok t → t = ty := fun t ht =>
    Except.ok.inj (ht.symm.trans hty)
  cases d with
  | bool v =>
    obtain ⟨rfl, rfl⟩ := appendOne.eq_of_ite h
    exact ⟨_, rfl, htype _ rfl ▸ .bool v⟩
  | int2 v =>
    obtain ⟨rfl, rfl⟩ := appendOne.eq_of_ite h
    exact ⟨_, rfl, htype _ rfl ▸ .int2 v⟩
  | int4 v =>
    obtain ⟨rfl, rfl⟩ := appendOne.eq_of_ite h
    exact ⟨_, rfl, htype _ rfl ▸ .int4 v⟩
  | int8 v =>
    obtain ⟨rfl, rfl⟩ := appendOne.eq_of_ite h
    exact ⟨_, rfl, htype _ rfl ▸ .int8 v⟩
  | float4 v =>
    obtain ⟨rfl, rfl⟩ := appendOne.eq_of_ite h
    exact ⟨_, rfl, htype _ rfl ▸ .float4 v⟩
  | float8 v =>
    obtain ⟨rfl, rfl⟩ := appendOne.eq_of_ite h
    exact ⟨_, rfl, htype _ rfl ▸ .float8 v⟩
  | text v =>
    obtain ⟨rfl | rfl, rfl⟩ := appendOne.eq_of_ite h
    · exact ⟨_, rfl, htype _ rfl ▸ .text v⟩
    · exact ⟨_, rfl, htype _ rfl ▸ .varchar v⟩
  | _ => cases h

theorem Writable.hasType {oid : Oid} {ty : DataType} {d : Datum} {x : ArrowValue}
    (h : Writable oid ty d x) : x.hasType ty = true := by
  cases h <;> rfl

theorem Writable.arrowToDatum {oid : Oid} {ty : DataType} {d : Datum} {x : ArrowValue}
    (h : Writable oid ty d x) (ext : Externals) : arrowToDatum ext ty oid x = .ok d := by
  cases h <;> rfl

/-- What is appended fits the column. -/
theorem appendOne_typed {oid : Oid} {ty : DataType} {v : Option Datum} {c : Option ArrowValue}
    (hty : pgOidToArrowType oid = .ok ty) (h : appendOne oid v = .ok c) : cellTyped ty c = true := by
  cases v with
  | none =>
    obtain rfl := Except.ok.inj h
    rfl
  | some d =>
    obtain ⟨x, rfl, hx⟩ := writable_of_appendOne hty h
    exact hx.hasType

/-- **What was appended is read back as the datum it was.** -/
theorem arrowValueToDatum_appendOne (ext : Externals) {oid : Oid} {v : Option Datum} {col : Column}
    {row : ℕ} (hty : pgOidToArrowType oid = .ok col.dataType)
    (h : appendOne oid v = .ok (col.cell row)) : arrowValueToDatum ext col row oid = .ok v := by
  rw [arrowValueToDatum]
  cases v with
  | none =>
    rw [← Except.ok.inj h]
  | some d =>
    obtain ⟨x, hx, hwritable⟩ := writable_of_appendOne hty h
    rw [hx]
    show some <$> ParquetAzureFdw.arrowToDatum ext col.dataType oid x = .ok (some d)
    rw [hwritable.arrowToDatum ext]
    rfl

/-! ### The types that can be read, against the types that are written -/

/-- A pair of types that `arrow_value_to_datum` accepts: some value is converted. -/
def AcceptedPair (ty : DataType) (oid : Oid) : Prop :=
  ∃ ext v d, arrowToDatum ext ty oid v = .ok d

/-- The pairs that are accepted, one by one. -/
inductive ReadPair : DataType → Oid → Prop
  | bool : ReadPair .boolean boolOid
  | int2 : ReadPair .int16 int2Oid
  | int4 : ReadPair .int32 int4Oid
  | int8 : ReadPair .int64 int8Oid
  | float4 : ReadPair .float32 float4Oid
  | float8 : ReadPair .float64 float8Oid
  | utf8 {oid : Oid} (h : oid = textOid ∨ oid = varcharOid ∨ oid = jsonbOid) : ReadPair .utf8 oid
  | largeUtf8 {oid : Oid} (h : oid = textOid ∨ oid = varcharOid ∨ oid = jsonbOid) :
      ReadPair .largeUtf8 oid
  | bytea : ReadPair .binary byteaOid
  | largeBytea : ReadPair .largeBinary byteaOid
  | date : ReadPair .date32 dateOid
  | timestamp : ReadPair (.timestamp .microsecond none) timestampOid
  | timestamptz (tz : String) : ReadPair (.timestamp .microsecond (some tz)) timestamptzOid
  | numeric (precision : ℕ) (scale : ℤ) : ReadPair (.decimal128 precision scale) numericOid

theorem arrowToDatum.of_ite {ty : DataType} {oid : Oid} {p : Prop} [Decidable p]
    {x : FdwResult Datum} {d : Datum} (h : (if p then x else arrowToDatum.unsupported ty oid) = .ok d) :
    p := by
  split_ifs at h with hp
  · exact hp
  · cases h

theorem AcceptedPair.readPair {ty : DataType} {oid : Oid} (h : AcceptedPair ty oid) :
    ReadPair ty oid := by
  obtain ⟨ext, v, d, h⟩ := h
  unfold arrowToDatum at h
  split at h
  case h_7 | h_8 =>
    have hoid : oid = textOid ∨ oid = varcharOid ∨ oid = jsonbOid := by
      split_ifs at h with htext hjson
      · tauto
      · exact .inr (.inr hjson)
      · cases h
    first | exact .utf8 hoid | exact .largeUtf8 hoid
  case h_12 tz _ =>
    split_ifs at h with hplain htz
    · obtain ⟨rfl, rfl⟩ := hplain
      exact .timestamp
    · obtain ⟨rfl, hsome⟩ := htz
      obtain ⟨label, rfl⟩ := Option.ne_none_iff_exists'.mp hsome
      exact .timestamptz label
    · cases h
  case h_14 => cases h
  all_goals
    obtain rfl := arrowToDatum.of_ite h
    constructor

/-- Whether a column has the one type of its kind that the write path uses: no large offsets,
the label `UTC`, and the numeric of 38 digits, 9 of them after the point. -/
def DataType.isCanonical : DataType → Bool
  | .largeUtf8 | .largeBinary => false
  | .timestamp _ (some tz) => tz == "UTC"
  | .decimal128 precision scale => precision == 38 && scale == 9
  | _ => true

/-- A column that can be read has the type of its attribute exactly when its type is the
canonical one. -/
theorem AcceptedPair.pgOidToArrowType_iff {ty : DataType} {oid : Oid} (h : AcceptedPair ty oid) :
    pgOidToArrowType oid = .ok ty ↔ ty.isCanonical = true := by
  cases h.readPair with
  | utf8 h | largeUtf8 h => rcases h with rfl | rfl | rfl <;> decide
  | timestamptz tz =>
    have htype : pgOidToArrowType timestamptzOid = .ok (.timestamp .microsecond (some "UTC")) := rfl
    rw [htype, DataType.isCanonical, beq_iff_eq]
    simp only [Except.ok.injEq, DataType.timestamp.injEq, Option.some.injEq, true_and]
    exact eq_comm
  | numeric precision scale =>
    have htype : pgOidToArrowType numericOid = .ok (.decimal128 38 9) := rfl
    rw [htype, DataType.isCanonical, Bool.and_eq_true, beq_iff_eq, beq_iff_eq]
    simp only [Except.ok.injEq, DataType.decimal128.injEq]
    exact and_congr eq_comm eq_comm
  | _ => decide

end ParquetAzureFdw
