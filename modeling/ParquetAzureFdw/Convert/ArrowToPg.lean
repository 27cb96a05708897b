/-
# From Arrow values to Postgres datums

`src/convert/arrow_to_pg.rs`: the conversion of one slot of an array to a datum
of the column's Postgres type, and the cast of a partition value in a blob's path
to a datum of its declared type.

What chrono, serde_json and pgrx do with a text or a range check is outside the
repository: it is the parameter `Externals`, whose errors carry their own texts.
-/

import ParquetAzureFdw.Arrow.Batch

namespace ParquetAzureFdw

/-- `pg_sys::Oid`. -/
abbrev Oid := ℕ

def boolOid : Oid := 16
def byteaOid : Oid := 17
def int8Oid : Oid := 20
def int2Oid : Oid := 21
def int4Oid : Oid := 23
def textOid : Oid := 25
def float4Oid : Oid := 700
def float8Oid : Oid := 701
def varcharOid : Oid := 1043
def dateOid : Oid := 1082
def timestampOid : Oid := 1114
def timestamptzOid : Oid := 1184
def numericOid : Oid := 1700
def jsonbOid : Oid := 3802

/-- A non-null Postgres value.  Dates and timestamps count from the Postgres
epoch; a numeric is the text `numeric_in` read, a `jsonb` its canonical text. -/
inductive Datum where
  | bool (v : Bool)
  | int2 (v : Int16)
  | int4 (v : Int32)
  | int8 (v : Int64)
  | float4 (bits : UInt32)
  | float8 (bits : UInt64)
  | text (v : String)
  | bytea (v : List UInt8)
  | date (pgDays : Int32)
  | timestamp (pgMicros : Int64)
  | timestamptz (pgMicros : Int64)
  | numeric (v : String)
  | jsonb (v : String)
  deriving DecidableEq, Repr

/-- `UNIX_TO_PG_EPOCH_DAYS`. -/
def unixToPgEpochDays : Int32 := 10957

/-- `UNIX_TO_PG_EPOCH_MICROS`. -/
def unixToPgEpochMicros : Int64 := 946684800000000

/-- `i32::try_from`. -/
def int32OfInt? (v : ℤ) : Option Int32 :=
  if -2 ^ 31 ≤ v ∧ v < 2 ^ 31 then some (Int32.ofInt v) else none

/-- `i64::try_from`. -/
def int64OfInt? (v : ℤ) : Option Int64 :=
  if -2 ^ 63 ≤ v ∧ v < 2 ^ 63 then some (Int64.ofInt v) else none

/-- `i32::checked_add`. -/
def checkedAdd32 (a b : Int32) : Option Int32 := int32OfInt? (a.toInt + b.toInt)

/-- `i32::checked_sub`. -/
def checkedSub32 (a b : Int32) : Option Int32 := int32OfInt? (a.toInt - b.toInt)

/-- `i64::checked_sub`. -/
def checkedSub64 (a b : Int64) : Option Int64 := int64OfInt? (a.toInt - b.toInt)

theorem int32OfInt?_eq_some {v : ℤ} {x : Int32} (h : int32OfInt? v = some x) : x.toInt = v := by
  unfold int32OfInt? at h
  split at h
  · obtain rfl := Option.some.inj h
    exact Int32.toInt_ofInt_of_le (by omega) (by omega)
  · cases h

theorem int32OfInt?_toInt (x : Int32) : int32OfInt? x.toInt = some x := by
  unfold int32OfInt?
  rw [if_pos ⟨x.le_toInt, x.toInt_lt⟩, Int32.ofInt_toInt]

theorem int64OfInt?_eq_some {v : ℤ} {x : Int64} (h : int64OfInt? v = some x) : x.toInt = v := by
  unfold int64OfInt? at h
  split at h
  · obtain rfl := Option.some.inj h
    exact Int64.toInt_ofInt_of_le (by omega) (by omega)
  · cases h

/-- The crates whose behaviour is outside the repository: the texts and the range
checks they accept. -/
structure Externals where
  /-- `NaiveDate::parse_from_str(_, "%Y-%m-%d")`, as days since 2000-01-01. -/
  parseYmd : String → Except String ℤ
  /-- `pgrx::datum::Date::try_from`. -/
  checkDate : Int32 → Except String Unit
  /-- `pgrx::datum::Timestamp::try_from`. -/
  checkTimestamp : Int64 → Except String Unit
  /-- `pgrx::datum::TimestampWithTimeZone::try_from`. -/
  checkTimestamptz : Int64 → Except String Unit
  /-- `AnyNumeric::try_from`. -/
  checkNumeric : String → Except String Unit
  /-- `serde_json::from_str`, as the canonical text of the value. -/
  parseJson : String → Except String String

/-- Crates that accept every value and no date text. -/
def Externals.permissive : Externals where
  parseYmd _ := .error "input contains invalid characters"
  checkDate _ := .ok ()
  checkTimestamp _ := .ok ()
  checkTimestamptz _ := .ok ()
  checkNumeric _ := .ok ()
  parseJson s := .ok s

/-- `DataType`'s `Debug` text. -/
def DataType.debug : DataType → String
  | .boolean => "Boolean"
  | .int16 => "Int16"
  | .int32 => "Int32"
  | .int64 => "Int64"
  | .float32 => "Float32"
  | .float64 => "Float64"
  | .utf8 => "Utf8"
  | .largeUtf8 => "LargeUtf8"
  | .binary => "Binary"
  | .largeBinary => "LargeBinary"
  | .date32 => "Date32"
  | .timestamp unit tz => "Timestamp(" ++ unitName unit ++ ", " ++ tzName tz ++ ")"
  | .decimal128 p s => "Decimal128(" ++ toString p ++ ", " ++ toString s ++ ")"
  | .other name => name
where
  unitName : TimeUnit → String
    | .second => "Second"
    | .millisecond => "Millisecond"
    | .microsecond => "Microsecond"
    | .nanosecond => "Nanosecond"
  tzName : Option String → String
    | none => "None"
    | some tz => "Some(\"" ++ tz ++ "\")"

/-- `n` zeros. -/
def zeros (n : ℕ) : String := String.ofList (List.replicate n '0')

/-- The text of `format_decimal128`; where its machine integers overflow is in
`formatDecimal128Checked`. -/
def formatDecimal128 (value scale : ℤ) : String :=
  if value = 0 then
    if 0 < scale then "0." ++ zeros scale.toNat else "0"
  else
    let digits := toString value.natAbs
    let s :=
      if 0 < scale then
        let scale := scale.toNat
        if digits.length ≤ scale then "0." ++ zeros (scale - digits.length) ++ digits
        else
          let split := digits.length - scale
          String.ofList (digits.toList.take split) ++ "." ++ String.ofList (digits.toList.drop split)
      else digits ++ zeros (-scale).toNat
    if value < 0 then "-" ++ s else s

/-- `json_value_to_datum`. -/
def jsonValueToDatum (ext : Externals) (s : String) : FdwResult Datum :=
  match ext.parseJson s with
  | .ok value => .ok (.jsonb value)
  | .error e => .error (.schemaMismatch ("invalid jsonb text: " ++ e))

/-- The matrix of `arrow_value_to_datum`, on a non-null value of an array of type `ty`. -/
def arrowToDatum (ext : Externals) (ty : DataType) (oid : Oid) (v : ArrowValue) :
    FdwResult Datum :=
  match ty, v with
  | .boolean, .boolean b => if oid = boolOid then .ok (.bool b) else unsupported
  | .int16, .int16 x => if oid = int2Oid then .ok (.int2 x) else unsupported
  | .int32, .int32 x => if oid = int4Oid then .ok (.int4 x) else unsupported
  | .int64, .int64 x => if oid = int8Oid then .ok (.int8 x) else unsupported
  | .float32, .float32 x => if oid = float4Oid then .ok (.float4 x) else unsupported
  | .float64, .float64 x => if oid = float8Oid then .ok (.float8 x) else unsupported
  | .utf8, .utf8 s | .largeUtf8, .utf8 s =>
    if oid = textOid ∨ oid = varcharOid then .ok (.text s)
    else if oid = jsonbOid then jsonValueToDatum ext s
    else unsupported
  | .binary, .binary b | .largeBinary, .binary b =>
    if oid = byteaOid then .ok (.bytea b) else unsupported
  | .date32, .date32 unixDays =>
    if oid = dateOid then
      match checkedSub32 unixDays unixToPgEpochDays with
      | none =>
        .error (.schemaMismatch ("date out of range: unix-days=" ++ toString unixDays.toInt))
      | some pgDays =>
        match ext.checkDate pgDays with
        | .ok () => .ok (.date pgDays)
        | .error e => .error (.schemaMismatch e)
    else unsupported
  | .timestamp .microsecond tz, .timestamp unixMicros =>
    if oid = timestampOid ∧ tz = none then
      match checkedSub64 unixMicros unixToPgEpochMicros with
      | none => outOfRange unixMicros
      | some pgMicros =>
        match ext.checkTimestamp pgMicros with
        | .ok () => .ok (.timestamp pgMicros)
        | .error e => .error (.schemaMismatch ("timestamp out of range: " ++ e))
    else if oid = timestamptzOid ∧ tz ≠ none then
      match checkedSub64 unixMicros unixToPgEpochMicros with
      | none => outOfRange unixMicros
      | some pgMicros =>
        match ext.checkTimestamptz pgMicros with
        | .ok () => .ok (.timestamptz pgMicros)
        | .error e => .error (.schemaMismatch ("timestamptz out of range: " ++ e))
    else unsupported
  | .decimal128 _ scale, .decimal128 x =>
    if oid = numericOid then
      let s := formatDecimal128 x scale
      match ext.checkNumeric s with
      | .ok () => .ok (.numeric s)
      | .error e => .error (.schemaMismatch ("invalid numeric \"" ++ s ++ "\": " ++ e))
    else unsupported
  | _, _ => unsupported
where
  unsupported : FdwResult Datum := .error (.unsupportedType ("oid=" ++ toString oid) ty.debug)
  outOfRange (unixMicros : Int64) : FdwResult Datum :=
    .error (.schemaMismatch ("timestamp out of range: unix-micros=" ++ toString unixMicros.toInt))

/-- How a converted value relates to the stored one: dates and timestamps are
moved to the Postgres epoch, other values are kept. -/
def ArrowValue.Converts : ArrowValue → Datum → Prop
  | .boolean a, .bool b => a = b
  | .int16 a, .int2 b => a = b
  | .int32 a, .int4 b => a = b
  | .int64 a, .int8 b => a = b
  | .float32 a, .float4 b => a = b
  | .float64 a, .float8 b => a = b
  | .utf8 a, .text b => a = b
  | .utf8 _, .jsonb _ => True
  | .binary a, .bytea b => a = b
  | .date32 a, .date b => b.toInt = a.toInt - 10957
  | .timestamp a, .timestamp b | .timestamp a, .timestamptz b => b.toInt = a.toInt - 946684800000000
  | .decimal128 _, .numeric _ => True
  | _, _ => False

theorem jsonValueToDatum_converts {ext : Externals} {s : String} {d : Datum}
    (h : jsonValueToDatum ext s = .ok d) : (ArrowValue.utf8 s).Converts d := by
  unfold jsonValueToDatum at h
  split at h
  · cases h; trivial
  · cases h

/-- A successful conversion keeps the value. -/
theorem arrowToDatum_converts {ext : Externals} {ty : DataType} {oid : Oid} {x : ArrowValue}
    {d : Datum} (h : arrowToDatum ext ty oid x = .ok d) : x.Converts d := by
  unfold arrowToDatum at h
  split at h
  all_goals try split at h
  -- What is left after the types that are kept and those that are refused: jsonb
  -- (twice), date, timestamp, timestamptz and numeric.
  all_goals try (cases h; done)
  all_goals try (cases h; rfl)
  · split at h
    · exact jsonValueToDatum_converts h
    · cases h
  · split at h
    · exact jsonValueToDatum_converts h
    · cases h
  · split at h
    · cases h
    · rename_i pgDays hdays
      split at h
      · cases h
        exact int32OfInt?_eq_some hdays
      · cases h
  · split at h
    · cases h
    · rename_i pgMicros hmicros
      split at h
      · cases h
        exact int64OfInt?_eq_some hmicros
      · cases h
  · split at h
    · split at h
      · cases h
      · rename_i pgMicros hmicros
        split at h
        · cases h
          exact int64OfInt?_eq_some hmicros
        · cases h
    · cases h
  · simp only at h
    split at h
    · cases h; trivial
    · cases h

/-- `arrow_value_to_datum`: NULL for a null slot, whatever the two types. -/
def arrowValueToDatum (ext : Externals) (col : Column) (row : ℕ) (oid : Oid) :
    FdwResult (Option Datum) :=
  match col.cell row with
  | none => .ok none
  | some v => some <$> arrowToDatum ext col.dataType oid v

/-- `arrow_type_to_pg_typename`. -/
def arrowTypeToPgTypename : DataType → FdwResult String
  | .boolean => .ok "BOOLEAN"
  | .int16 => .ok "SMALLINT"
  | .int32 => .ok "INTEGER"
  | .int64 => .ok "BIGINT"
  | .float32 => .ok "REAL"
  | .float64 => .ok "DOUBLE PRECISION"
  | .utf8 | .largeUtf8 => .ok "TEXT"
  | .binary | .largeBinary => .ok "BYTEA"
  | .date32 => .ok "DATE"
  | .timestamp .microsecond none => .ok "TIMESTAMP"
  | .timestamp .microsecond (some _) => .ok "TIMESTAMPTZ"
  | .decimal128 p s => .ok ("NUMERIC(" ++ toString p ++ "," ++ toString s ++ ")")
  | other =>
    .error (.schemaMismatch ("arrow type " ++ other.debug ++ " has no SP-2 DDL mapping"))

end ParquetAzureFdw
