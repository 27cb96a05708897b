/-
# Arrow columns and record batches

The part of Arrow's data model the wrapper uses: the data types it dispatches
on, the value in one slot of an array, an array (`Column`), which holds values of
its type only, and a `RecordBatch`, whose columns all have the batch's number of
rows (the field `length_eq`, checked in Rust by `RecordBatch::try_new`).

Two orders are set on values.  `ArrowValue.kernelCompare` is the order of
Arrow's comparison kernels, where floats compare by `total_cmp` of their bits;
`ArrowValue.sqlCompare` is the order of Postgres, where `-0` equals `0` and a
NaN is the greatest float.  They agree away from floats
(`kernelCompare_eq_sqlCompare`).  Text compares bytewise in both.
-/

import Mathlib.Data.List.GetD
import Mathlib.Tactic
import ParquetAzureFdw.Error

namespace ParquetAzureFdw

/-- `arrow::datatypes::TimeUnit`. -/
inductive TimeUnit where
  | second | millisecond | microsecond | nanosecond
  deriving DecidableEq, Repr

/-- `arrow::datatypes::DataType`; a type that no function of the wrapper tells
apart from the others is `other`, under its `Debug` text. -/
inductive DataType where
  | boolean | int16 | int32 | int64 | float32 | float64
  | utf8 | largeUtf8 | binary | largeBinary | date32
  | timestamp (unit : TimeUnit) (tz : Option String)
  | decimal128 (precision : ℕ) (scale : ℤ)
  | other (name : String)
  deriving DecidableEq, Repr

/-- The value in a non-null slot of an array.  Floats are their bits. -/
inductive ArrowValue where
  | boolean (v : Bool)
  | int16 (v : Int16)
  | int32 (v : Int32)
  | int64 (v : Int64)
  | float32 (bits : UInt32)
  | float64 (bits : UInt64)
  | utf8 (v : String)
  | binary (v : List UInt8)
  | date32 (unixDays : Int32)
  | timestamp (unixMicros : Int64)
  | decimal128 (unscaled : ℤ)
  deriving DecidableEq, Repr

/-- Whether an array of type `ty` can hold the value. -/
def ArrowValue.hasType : ArrowValue → DataType → Bool
  | .boolean _, .boolean | .int16 _, .int16 | .int32 _, .int32 | .int64 _, .int64 => true
  | .float32 _, .float32 | .float64 _, .float64 => true
  | .utf8 _, .utf8 | .utf8 _, .largeUtf8 => true
  | .binary _, .binary | .binary _, .largeBinary => true
  | .date32 _, .date32 => true
  | .timestamp _, .timestamp _ _ => true
  | .decimal128 _, .decimal128 _ _ => true
  | _, _ => false

/-- Whether the value is a floating-point number. -/
def ArrowValue.isFloat : ArrowValue → Bool
  | .float32 _ | .float64 _ => true
  | _ => false

/-- The bytes of a text value. -/
def utf8Bytes (s : String) : List UInt8 := s.toUTF8.data.toList

theorem utf8Bytes_injective {a b : String} (h : utf8Bytes a = utf8Bytes b) : a = b :=
  String.toByteArray_inj.mp (ByteArray.ext (Array.toList_inj.mp h))

/-- `f32::total_cmp` and `f64::total_cmp`, as the order of a key: the bits, with
the negative floats reversed below zero. -/
def totalOrderKey (width bits : ℕ) : ℤ :=
  if bits < 2 ^ (width - 1) then bits else 2 ^ (width - 1) - 1 - bits

/-- The order of Postgres' `float4` and `float8` as the order of a key: `-0` is
`0`, and every NaN (an all-ones exponent over a nonzero mantissa, so a magnitude
above that of infinity) is the greatest value. -/
def pgFloatKey (width infinity bits : ℕ) : ℤ :=
  if infinity < bits % 2 ^ (width - 1) then 2 ^ width
  else if bits < 2 ^ (width - 1) then bits
  else 2 ^ (width - 1) - bits

/-! The order of a machine integer is that of the number it stands for. -/

theorem Int16.compare_eq_compare_toInt (a b : Int16) : compare a b = compare a.toInt b.toInt := by
  simp only [compare, compareOfLessAndEq, Int16.lt_iff_toInt_lt, ← Int16.toInt_inj]

theorem Int32.compare_eq_compare_toInt (a b : Int32) : compare a b = compare a.toInt b.toInt := by
  simp only [compare, compareOfLessAndEq, Int32.lt_iff_toInt_lt, ← Int32.toInt_inj]

theorem Int64.compare_eq_compare_toInt (a b : Int64) : compare a b = compare a.toInt b.toInt := by
  simp only [compare, compareOfLessAndEq, Int64.lt_iff_toInt_lt, ← Int64.toInt_inj]

/-- The order of two values that are no floats; `none` when they are not of one type. -/
def ArrowValue.compareExact : ArrowValue → ArrowValue → Option Ordering
  | .boolean a, .boolean b => some (compare a b)
  | .int16 a, .int16 b => some (compare a b)
  | .int32 a, .int32 b => some (compare a b)
  | .int64 a, .int64 b => some (compare a b)
  | .utf8 a, .utf8 b => some (compare (utf8Bytes a) (utf8Bytes b))
  | .binary a, .binary b => some (compare a b)
  | .date32 a, .date32 b => some (compare a b)
  | .timestamp a, .timestamp b => some (compare a b)
  | .decimal128 a, .decimal128 b => some (compare a b)
  | _, _ => none

/-- The order of Arrow's comparison kernels. -/
def ArrowValue.kernelCompare : ArrowValue → ArrowValue → Option Ordering
  | .float32 a, .float32 b => some (compare (totalOrderKey 32 a.toNat) (totalOrderKey 32 b.toNat))
  | .float64 a, .float64 b => some (compare (totalOrderKey 64 a.toNat) (totalOrderKey 64 b.toNat))
  | a, b => a.compareExact b

/-- The order of Postgres' comparison operators. -/
def ArrowValue.sqlCompare : ArrowValue → ArrowValue → Option Ordering
  | .float32 a, .float32 b =>
    some (compare (pgFloatKey 32 0x7f800000 a.toNat) (pgFloatKey 32 0x7f800000 b.toNat))
  | .float64 a, .float64 b =>
    some (compare (pgFloatKey 64 0x7ff0000000000000 a.toNat)
      (pgFloatKey 64 0x7ff0000000000000 b.toNat))
  | a, b => a.compareExact b

/-- The number of an integer of any width. -/
def ArrowValue.int? : ArrowValue → Option ℤ
  | .int16 v => some v.toInt
  | .int32 v => some v.toInt
  | .int64 v => some v.toInt
  | _ => none

/-- The order of Postgres' operators, with those that compare integers of two widths. -/
def ArrowValue.wideCompare (x lit : ArrowValue) : Option Ordering :=
  match x.int?, lit.int? with
  | some a, some b => some (compare a b)
  | _, _ => x.sqlCompare lit

/-- Away from floats the kernels order values as Postgres does. -/
theorem ArrowValue.kernelCompare_eq_sqlCompare {a b : ArrowValue} (hb : b.isFloat = false) :
    a.kernelCompare b = a.sqlCompare b := by
  cases b with
  | float32 _ | float64 _ => cases hb
  | _ => cases a <;> rfl

/-- On floats they differ: Arrow tells `-0` from `0`, Postgres does not. -/
example : (ArrowValue.float32 0x80000000).kernelCompare (.float32 0) = some .lt ∧
    (ArrowValue.float32 0x80000000).sqlCompare (.float32 0) = some .eq := by decide

/-- Whether a slot of an array of type `ty` can hold this: NULL, or a value of the type. -/
def cellTyped (ty : DataType) : Option ArrowValue → Bool
  | none => true
  | some x => x.hasType ty

/-- One array: its type and its slots. -/
structure Column where
  dataType : DataType
  values : List (Option ArrowValue)
  typed : ∀ v ∈ values, cellTyped dataType v = true
  deriving DecidableEq

/-- The slot of row `i`. -/
def Column.cell (c : Column) (i : ℕ) : Option ArrowValue := c.values.getD i none

theorem Column.cell_typed (c : Column) (i : ℕ) : cellTyped c.dataType (c.cell i) = true := by
  rw [Column.cell, List.getD_eq_getElem?_getD]
  cases h : c.values[i]? with
  | none => rfl
  | some v => exact c.typed v (List.mem_of_getElem? h)

/-- `arrow::record_batch::RecordBatch`. -/
structure RecordBatch where
  numRows : ℕ
  columns : List Column
  length_eq : ∀ c ∈ columns, c.values.length = numRows
  deriving DecidableEq

/-- A row: one slot for each column. -/
abbrev ArrowRow := List (Option ArrowValue)

/-- Row `i` of a batch. -/
def RecordBatch.row (b : RecordBatch) (i : ℕ) : ArrowRow := b.columns.map (·.cell i)

/-- Whether each slot of a row holds what its column's type allows. -/
def rowTyped : List DataType → ArrowRow → Bool
  | [], [] => true
  | ty :: types, v :: row => cellTyped ty v && rowTyped types row
  | _, _ => false

/-- A row of a table with the given column types. -/
structure TypedRow (types : List DataType) where
  cells : ArrowRow
  typed : rowTyped types cells = true
  deriving DecidableEq

/-- The slot of column `k`. -/
def TypedRow.cell {types : List DataType} (r : TypedRow types) (k : ℕ) : Option ArrowValue :=
  r.cells.getD k none

theorem rowTyped_getD {types : List DataType} {row : ArrowRow} (h : rowTyped types row = true)
    (k : ℕ) (ty : DataType) : cellTyped (types.getD k ty) (row.getD k none) = true := by
  induction types generalizing row k with
  | nil => cases row with
    | nil => rfl
    | cons v row => cases h
  | cons t types ih => cases row with
    | nil => cases h
    | cons v row =>
      rw [rowTyped, Bool.and_eq_true] at h
      cases k with
      | zero => exact h.1
      | succ k => exact ih h.2 k

theorem TypedRow.length_cells {types : List DataType} (r : TypedRow types) :
    r.cells.length = types.length := by
  obtain ⟨row, h⟩ := r
  induction types generalizing row with
  | nil => cases row with
    | nil => rfl
    | cons v row => cases h
  | cons t types ih => cases row with
    | nil => cases h
    | cons v row =>
      rw [rowTyped, Bool.and_eq_true] at h
      exact congrArg (· + 1) (ih row h.2)

/-- Column `k` of a list of rows. -/
def columnOfRows {types : List DataType} (rows : List (TypedRow types)) (k : ℕ) : Column where
  dataType := types.getD k (.other "")
  values := rows.map (·.cell k)
  typed := by
    intro v hv
    obtain ⟨r, -, rfl⟩ := List.mem_map.mp hv
    exact rowTyped_getD r.typed k _

/-- The batch of the given rows, restricted to the columns `cols` (indices into
the rows), in that order. -/
def RecordBatch.ofRows {types : List DataType} (cols : List ℕ) (rows : List (TypedRow types)) :
    RecordBatch where
  numRows := rows.length
  columns := cols.map (columnOfRows rows)
  length_eq := by
    intro c hc
    obtain ⟨k, -, rfl⟩ := List.mem_map.mp hc
    simp [columnOfRows]

theorem columnOfRows_cell {types : List DataType} {rows : List (TypedRow types)} {i : ℕ}
    {r : TypedRow types} (hi : rows[i]? = some r) (k : ℕ) :
    (columnOfRows rows k).cell i = r.cell k := by
  simp [Column.cell, columnOfRows, List.getD_eq_getElem?_getD, hi]

/-- Row `i` of the batch is row `i` of the list, restricted to the columns asked for. -/
theorem RecordBatch.row_ofRows {types : List DataType} {rows : List (TypedRow types)} {i : ℕ}
    {r : TypedRow types} (hi : rows[i]? = some r) (cols : List ℕ) :
    (RecordBatch.ofRows cols rows).row i = cols.map r.cell := by
  simp only [RecordBatch.row, RecordBatch.ofRows, List.map_map]
  exact List.map_congr_left fun k _ => columnOfRows_cell hi k

end ParquetAzureFdw
