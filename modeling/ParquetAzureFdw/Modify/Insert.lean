/-
# The write path of INSERT

`build_state` and `append_slot` of `src/fdw/modify/insert.rs`, and
`datum_to_partition_string` of `src/convert/partition_datum.rs`.  A tuple is routed
to a group by the texts of its partition columns; its other columns are appended,
in descriptor order, to the builders of the group, and the group becomes one blob.

The columns of that blob are the storage columns of the relation
(`buildInsertLayout_types`), and its rows hold, column by column, what was
appended for the tuple (`WrittenGroup.cell`).
-/

import ParquetAzureFdw.Convert.PgToArrow
import ParquetAzureFdw.Relation
import ParquetAzureFdw.Scan.Stream

namespace ParquetAzureFdw

/-- `arrow::datatypes::Field`. -/
structure Field where
  name : String
  dataType : DataType
  nullable : Bool
  deriving DecidableEq, Repr

/-- `pg_attrs_to_arrow_schema`. -/
def pgAttrsToArrowSchema (attrs : List Attribute) : FdwResult (List Field) :=
  attrs.mapM fun att => do
    let dataType ← pgOidToArrowType att.typid
    return ⟨att.name, dataType, !att.notNull⟩

/-- The fields of `InsertState` that name columns. -/
structure InsertLayout where
  schema : List Field
  pgOids : List Oid
  partitionAttnums : List ℕ
  deriving DecidableEq, Repr

/-- The part of `build_state` that sets them. -/
def buildInsertLayout (attrs : List Attribute) (opts : PartitionOptions) :
    FdwResult InsertLayout := do
  let pgOids ← attributeOids " on write path" attrs
  let partitionAttnums ← resolvePartitionAttnums attrs opts.columns
  let storage := (storageAttnos partitionAttnums attrs.length).filterMap (attrs[·]?)
  let schema ← pgAttrsToArrowSchema storage
  return ⟨schema, pgOids, partitionAttnums⟩

/-! ### One tuple -/

/-- A tuple as the executor passes it: the datum of each attribute. -/
abbrev Tuple := List (Option Datum)

/-- A partition value that is an integer. -/
def intPartitionString (v : ℤ) : FdwResult String :=
  if v < 0 then .error (.schemaMismatch "negative partition value not supported in v1")
  else .ok (toString v)

/-- A partition value that is a text. -/
def textPartitionString (v : String) : FdwResult String :=
  if v.isEmpty then .error (.schemaMismatch "partition text value cannot be empty")
  else if v.toList.contains '/' || v.toList.contains '=' then
    .error (.schemaMismatch ("partition text value '" ++ v ++
      "' contains '/' or '='; these characters collide with the Hive path grammar"))
  else if ['.', '.'] <:+: v.toList then
    .error (.schemaMismatch ("text partition value '" ++ v ++
      "' must not contain '..' (path-traversal symmetry with read-side SSRF validator)"))
  else .ok v

section Append

/- `NaiveDate` arithmetic and formatting: the date so many days after 2000-01-01 as
`%Y-%m-%d`, when it can be represented. -/
variable (formatPgDays : Int32 → Option String)

/-- `datum_to_partition_string`.  A datum is of its attribute's type. -/
def datumToPartitionString (oid : Oid) : Datum → FdwResult String
  | .int2 v => if oid = int2Oid then intPartitionString v.toInt else unsupported
  | .int4 v => if oid = int4Oid then intPartitionString v.toInt else unsupported
  | .int8 v => if oid = int8Oid then intPartitionString v.toInt else unsupported
  | .date v =>
    if oid = dateOid then
      match formatPgDays v with
      | some text => .ok text
      | none =>
        .error (.schemaMismatch ("partition date out of range: pg-days=" ++ toString v.toInt))
    else unsupported
  | .text v => if oid = textOid ∨ oid = varcharOid then textPartitionString v else unsupported
  | _ => unsupported
where
  unsupported : FdwResult String :=
    .error (.unsupportedType ("oid=" ++ toString oid ++ " (partition string)") "<n/a>")

/-- The text of the partition column `attno` of a tuple. -/
def partitionText (layout : InsertLayout) (tuple : Tuple) (attno : ℕ) : FdwResult String :=
  match tuple.getD attno none with
  | none =>
    .error (.schemaMismatch ("partition column attno " ++ toString attno ++ " cannot be NULL"))
  | some d => datumToPartitionString formatPgDays (layout.pgOids.getD attno 0) d

/-- `append_slot`, as the group that the tuple is routed to (`PartitionTupleKey`) and
the slots appended to the group's builders. -/
def appendSlot (layout : InsertLayout) (tuple : Tuple) : FdwResult (List String × ArrowRow) := do
  let key ← layout.partitionAttnums.mapM (partitionText formatPgDays layout tuple)
  let row ← (storageAttnos layout.partitionAttnums layout.pgOids.length).mapM fun i =>
    appendOne (layout.pgOids.getD i 0) (tuple.getD i none)
  return (key, row)

/-- `RecordBatch::try_new`: there is a column, and no NULL where the field allows none. -/
def recordBatchAccepts (schema : List Field) (rows : List ArrowRow) : Bool :=
  !schema.isEmpty && rows.all fun row => (schema.zip row).all fun (f, v) => f.nullable || v.isSome

/-- The blob of a group: its rows are those appended for the group's tuples, in order. -/
structure WrittenGroup (layout : InsertLayout) (key : List String) (tuples : List Tuple)
    (file : ParquetFile) : Prop where
  types_eq : file.types = layout.schema.map Field.dataType
  accepted : recordBatchAccepts layout.schema (file.rows.map TypedRow.cells) = true
  rows : List.Forall₂ (fun tuple row => appendSlot formatPgDays layout tuple = .ok (key, row.cells))
    tuples file.rows

end Append

/-! ### The columns of a blob -/

theorem getElem?_filterMap_getElem? {α : Type} {xs : List α} {l : List ℕ}
    (h : ∀ a ∈ l, a < xs.length) (r : ℕ) :
    (l.filterMap (xs[·]?))[r]? = (l[r]?).bind (xs[·]?) := by
  induction l generalizing r with
  | nil => rfl
  | cons a l ih =>
    have hlt : a < xs.length := h a (by simp)
    have ha : xs[a]? = some xs[a] := List.getElem?_eq_getElem hlt
    rw [List.filterMap_cons, ha]
    cases r with
    | zero => exact ha.symm
    | succ r => exact ih (fun b hb => h b (by simp [hb])) r

section Columns

variable {attrs : List Attribute} {opts : PartitionOptions} {layout : InsertLayout}

/-- The fields that `build_state` sets. -/
theorem buildInsertLayout_spec (h : buildInsertLayout attrs opts = .ok layout) :
    layout.pgOids = attrs.map Attribute.typid ∧
      resolvePartitionAttnums attrs opts.columns = .ok layout.partitionAttnums ∧
      pgAttrsToArrowSchema ((storageAttnos layout.partitionAttnums attrs.length).filterMap (attrs[·]?))
        = .ok layout.schema := by
  obtain ⟨oids, hoids, h⟩ := except_bind_eq_ok.mp h
  obtain ⟨attnums, hattnums, h⟩ := except_bind_eq_ok.mp h
  obtain ⟨schema, hschema, h⟩ := except_bind_eq_ok.mp h
  obtain rfl := Except.ok.inj h
  exact ⟨attributeOids_eq hoids, hattnums, hschema⟩

/-- Column `r` of the blob is of the type of the `r`-th storage column. -/
theorem buildInsertLayout_types (h : buildInsertLayout attrs opts = .ok layout) {r a : ℕ}
    (ha : (storageAttnos layout.partitionAttnums attrs.length)[r]? = some a) :
    ∃ ty, (layout.schema.map Field.dataType)[r]? = some ty ∧
      pgOidToArrowType (layout.pgOids.getD a 0) = .ok ty := by
  obtain ⟨hoids, -, hschema⟩ := buildInsertLayout_spec h
  have hlt : a < attrs.length := (mem_storageAttnos.mp (List.mem_of_getElem? ha)).1
  have hatt : attrs[a]? = some attrs[a] := List.getElem?_eq_getElem hlt
  have hstorage : ((storageAttnos layout.partitionAttnums attrs.length).filterMap (attrs[·]?))[r]? =
      some attrs[a] := by
    rw [getElem?_filterMap_getElem? (fun b hb => (mem_storageAttnos.mp hb).1), ha]
    exact hatt
  obtain ⟨field, hfield, hty⟩ := forall₂_getElem? (mapM_eq_ok_iff.mp hschema) hstorage
  obtain ⟨ty, hty, h⟩ := except_bind_eq_ok.mp hty
  refine ⟨ty, ?_, ?_⟩
  · rw [List.getElem?_map, hfield, ← Except.ok.inj h]
    rfl
  · rw [hoids, List.getD_eq_getElem?_getD, List.getElem?_map, hatt]
    exact hty

variable {formatPgDays : Int32 → Option String} {key : List String} {tuples : List Tuple}
  {file : ParquetFile}

/-- **The row of a tuple holds, in column `r`, what was appended for the `r`-th storage
column.** -/
theorem WrittenGroup.cell (hfile : WrittenGroup formatPgDays layout key tuples file)
    {p : ℕ} {row : TypedRow file.types} (hrow : file.rows[p]? = some row) :
    ∃ tuple, tuples[p]? = some tuple ∧
      ∀ r a, (storageAttnos layout.partitionAttnums layout.pgOids.length)[r]? = some a →
        appendOne (layout.pgOids.getD a 0) (tuple.getD a none) = .ok (row.cell r) := by
  obtain ⟨tuple, htuple, happend⟩ := forall₂_getElem? hfile.rows.flip hrow
  refine ⟨tuple, htuple, fun r a ha => ?_⟩
  obtain ⟨texts, -, happend⟩ := except_bind_eq_ok.mp happend
  obtain ⟨cells, hcells, happend⟩ := except_bind_eq_ok.mp happend
  obtain ⟨-, rfl⟩ := Prod.mk.inj (Except.ok.inj happend)
  obtain ⟨cell, hcell, hone⟩ := forall₂_getElem? (mapM_eq_ok_iff.mp hcells) ha
  have hread : row.cell r = cell := by
    rw [TypedRow.cell, List.getD_eq_getElem?_getD, hcell]
    rfl
  rw [hread]
  exact hone

/-- A blob has a column. -/
theorem WrittenGroup.schema_ne_nil (hfile : WrittenGroup formatPgDays layout key tuples file) :
    layout.schema ≠ [] := by
  have haccepted := hfile.accepted
  rw [recordBatchAccepts, Bool.and_eq_true] at haccepted
  simpa using haccepted.1

end Columns

end ParquetAzureFdw
