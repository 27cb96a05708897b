/-
# The schema of a rewrite

What `build_plan` and `exec_foreign_update` of `src/fdw/modify/update.rs` say of
columns.  The plan's schema has a field for each attribute of the relation, partition
columns included, of the type that the write path uses; the values of a SET are one-row
arrays of those types, under the numbers of their attributes.  `apply_edits_batch` makes
the columns of the blob and that schema one batch.

A blob may have other types (large offsets, another time zone label, another numeric) and
no partition columns, and the scan reads it.  The rewrite then fails: it succeeds, and sets
what the statement sets, exactly when the blob has one column of the canonical type for
each attribute and no NULL where the attribute allows none (`table_rewritable_iff`).
-/

import ParquetAzureFdw.Modify.Kernel

namespace ParquetAzureFdw

/-! ### The plan -/

/-- The operation of a ModifyTable node, and the attributes of the SET list. -/
inductive ModifyCommand where
  | delete
  | update (attnums : List ℕ)
  deriving DecidableEq, Repr

/-- `update_attnums`. -/
def ModifyCommand.updateAttnums : ModifyCommand → List ℕ
  | .delete => []
  | .update attnums => attnums

/-- The fields of `ModifyPlan` that name columns. -/
structure PlanColumns where
  schema : List Field
  pgOids : List Oid
  updateAttnums : List ℕ
  deriving DecidableEq, Repr

/-- The walk over the tuple descriptor. -/
def planOids (attrs : List Attribute) : FdwResult (List Oid) :=
  attrs.zipIdx.mapM fun (att, i) =>
    if att.isDropped then
      .error (.schemaMismatch ("dropped column at attnum " ++ toString (i + 1)))
    else .ok att.typid

/-- The partition columns, as `build_plan` finds them; a name without a column is left out. -/
def planPartitionAttnums (attrs : List Attribute) (columns : List String) : List ℕ :=
  columns.filterMap fun name => attrs.findIdx? fun att => eqIgnoreAsciiCase att.name.toList name.toList

/-- `reject_partition_update`. -/
def rejectPartitionUpdate (updateAttnums partitionAttnums : List ℕ) (attnameFor : List String) :
    FdwResult Unit :=
  match updateAttnums.find? fun col => col ∈ partitionAttnums with
  | some col =>
    .error (.schemaMismatch ("cannot UPDATE partition column '" ++
      (attnameFor[col]?).getD ("attno=" ++ toString col) ++ "' — partition values are " ++
      "encoded in the blob path, not the parquet data. DELETE + INSERT to relocate."))
  | none => .ok ()

/-- The part of `build_plan` that sets them. -/
def buildPlanColumns (attrs : List Attribute) (opts : PartitionOptions) (cmd : ModifyCommand) :
    FdwResult PlanColumns := do
  let pgOids ← planOids attrs
  let schema ← pgAttrsToArrowSchema attrs
  rejectPartitionUpdate cmd.updateAttnums (planPartitionAttnums attrs opts.columns)
    (attrs.map Attribute.name)
  return ⟨schema, pgOids, cmd.updateAttnums⟩

/-! ### The values of a SET -/

/-- The types that `make_builder` has a builder for. -/
def DataType.hasBuilder : DataType → Bool
  | .boolean | .int16 | .int32 | .int64 | .float32 | .float64 | .utf8 | .binary | .date32
  | .timestamp .microsecond _ | .decimal128 _ _ => true
  | _ => false

/-- `datum_to_single_row_array`: a batch of one row and one column. -/
def datumToSingleRowArray (oid : Oid) (v : Option Datum) (field : Field) : FdwResult Column := do
  if field.dataType.hasBuilder then
    let cell ← appendOne oid v
    if h : cellTyped field.dataType cell = true then
      let array : Column := ⟨field.dataType, [cell], by simpa using h⟩
      let _ ← RecordBatch.tryNew [field] [array]
      return array
    else .error (.schemaMismatch "builder for column 0 is not of the type of the value")
  else .error (.unsupportedType "<n/a>" field.dataType.debug)

/-- The loop of `exec_foreign_update` over the SET list; `slot` has the new tuple. -/
def overrideValues (plan : PlanColumns) (slot : Tuple) :
    List (Option Column) → List ℕ → FdwResult (List (Option Column))
  | values, [] => .ok values
  | values, col :: cols =>
    match plan.schema[col]? with
    | none =>
      .error (.schemaMismatch ("update_attnums col " ++ toString col ++ " >= tupdesc natts " ++
        toString plan.schema.length))
    | some field => do
      let one ← datumToSingleRowArray (plan.pgOids.getD col 0) (slot.getD col none) field
      overrideValues plan slot (values.set col (some one)) cols

/-- The override that `exec_foreign_update` records for a row. -/
def rowOverride (plan : PlanColumns) (slot : Tuple) : FdwResult RowOverride := do
  let values ← overrideValues plan slot (List.replicate plan.schema.length none) plan.updateAttnums
  return ⟨values⟩

/-- The updates that a statement recorded for a blob: the new tuples of its rows, each row once,
and their overrides. -/
structure RecordedUpdates (plan : PlanColumns) (sets : List (ℕ × Tuple)) (edits : BlobEdits) :
    Prop where
  distinct : (sets.map Prod.fst).Nodup
  overrides : List.Forall₂ (fun set update => update.1 = set.1 ∧
    rowOverride plan set.2 = .ok update.2) sets edits.updates

/-! ### What a rewrite has to do -/

section Rewrite

variable (attrs : List Attribute) (opts : PartitionOptions) (cmd : ModifyCommand)
  (sets : List (ℕ × Tuple)) (edits : BlobEdits) (baseOffset : ℕ) (batch : RecordBatch)

/-- A batch of a blob that the scan can read: for each storage attribute the column that
`attno_map` gives to it is there, of a type that its Postgres type can be read from. -/
structure ReadableBatch : Prop where
  live : ∀ att ∈ attrs, att.isDropped = false
  column : ∀ (a : ℕ) att, attrs[a]? = some att → ¬ opts.Declares attrs a →
    ∃ col, batch.columns[a]? = some col ∧ AcceptedPair col.dataType att.typid

/-- The new tuple of a row, if the statement sets attribute `a` of it. -/
def ModifyCommand.setRow (cmd : ModifyCommand) (sets : List (ℕ × Tuple)) (abs a : ℕ) : Option Tuple :=
  if a ∈ cmd.updateAttnums then sets.lookup abs else none

/-- What a slot of the column of attribute `a` holds after the statement: the value that was set,
or what it held. -/
def SlotAfter (abs a : ℕ) (old new : Option ArrowValue) : Prop :=
  match cmd.setRow sets abs a with
  | some slot => ∃ att, attrs[a]? = some att ∧ appendOne att.typid (slot.getD a none) = .ok new
  | none => new = old

/-- The batch after the statement: the same columns, and the rows that are not deleted, each
with the values that were set. -/
structure BatchAfter (out : RecordBatch) : Prop where
  types : out.columns.map Column.dataType = batch.columns.map Column.dataType
  rows : List.Forall₂ (fun row new => new.length = batch.columns.length ∧
      ∀ a < batch.columns.length, SlotAfter attrs cmd sets (baseOffset + row) a
        ((batch.row row).getD a none) (new.getD a none))
    ((List.range batch.numRows).filter fun row => !edits.isDeleted (baseOffset + row)) out.rows

/-- The plan's schema has the columns of the batch, and the kernel computes the batch after the
statement. -/
def Rewritable : Prop :=
  ∃ plan out, buildPlanColumns attrs opts cmd = .ok plan ∧
    plan.schema.map Field.dataType = batch.columns.map Column.dataType ∧
    applyEditsBatch edits baseOffset plan.schema batch = .ok out ∧
    BatchAfter attrs cmd sets edits baseOffset batch out

/-- What the blob and the relation have to agree on: the blob has a column for each attribute,
also for a partition column, and no other; its types are those of the write path; and a NULL in
a column that is declared NOT NULL is in a row that sets it. -/
structure PlanFits : Prop where
  nonempty : attrs ≠ []
  count : batch.columns.length = attrs.length
  storage : ∀ (a : ℕ) col, batch.columns[a]? = some col → ¬ opts.Declares attrs a →
    col.dataType.isCanonical = true
  partition : ∀ (a : ℕ) att col, attrs[a]? = some att → batch.columns[a]? = some col →
    opts.Declares attrs a → pgOidToArrowType att.typid = .ok col.dataType
  notNull : ∀ (a : ℕ) att col, attrs[a]? = some att → batch.columns[a]? = some col →
    att.notNull = true → ∀ row < batch.numRows, col.cell row = none →
      (cmd.setRow sets (baseOffset + row) a).isSome = true

end Rewrite

/-! ### The columns of the plan -/

section Plan

variable {attrs : List Attribute} {opts : PartitionOptions} {cmd : ModifyCommand}
  {plan : PlanColumns} {schema : List Field} {batch : RecordBatch}

theorem planOids_of_live (hlive : ∀ att ∈ attrs, att.isDropped = false) :
    planOids attrs = .ok (attrs.map Attribute.typid) := by
  have hmap : attrs.map Attribute.typid = attrs.zipIdx.map (Attribute.typid ∘ Prod.fst) := by
    rw [← List.map_map, List.zipIdx_map_fst]
  rw [hmap]
  refine mapM_eq_ok_iff.mpr ?_
  rw [List.forall₂_map_right_iff, List.forall₂_same]
  rintro ⟨att, i⟩ hmem
  have hatt : att ∈ attrs := List.fst_mem_of_mem_zipIdx hmem
  simp [hlive att hatt]

theorem rejectPartitionUpdate_of_storage
    (hstorage : ∀ a ∈ cmd.updateAttnums, ¬ opts.Declares attrs a) (names : List String) :
    rejectPartitionUpdate cmd.updateAttnums (planPartitionAttnums attrs opts.columns) names =
      .ok () := by
  have hnone : cmd.updateAttnums.find? (fun col => col ∈ planPartitionAttnums attrs opts.columns) =
      none := by
    refine List.find?_eq_none.mpr fun a ha hmem => hstorage a ha ?_
    exact List.mem_filterMap.mp (of_decide_eq_true hmem)
  rw [rejectPartitionUpdate, hnone]

/-- The plan of a statement on storage columns. -/
theorem buildPlanColumns_eq_ok_iff (hlive : ∀ att ∈ attrs, att.isDropped = false)
    (hstorage : ∀ a ∈ cmd.updateAttnums, ¬ opts.Declares attrs a) :
    buildPlanColumns attrs opts cmd = .ok plan ↔ ∃ schema, pgAttrsToArrowSchema attrs = .ok schema ∧
      plan = ⟨schema, attrs.map Attribute.typid, cmd.updateAttnums⟩ := by
  have hoids := planOids_of_live hlive
  constructor
  · intro h
    obtain ⟨oids, hoids', h⟩ := except_bind_eq_ok.mp h
    obtain ⟨schema, hschema, h⟩ := except_bind_eq_ok.mp h
    obtain ⟨-, -, h⟩ := except_bind_eq_ok.mp h
    obtain rfl := Except.ok.inj (hoids.symm.trans hoids')
    exact ⟨schema, hschema, (Except.ok.inj h).symm⟩
  · rintro ⟨schema, hschema, rfl⟩
    refine except_bind_eq_ok.mpr ⟨_, hoids, except_bind_eq_ok.mpr ⟨schema, hschema, ?_⟩⟩
    exact except_bind_eq_ok.mpr ⟨(), rejectPartitionUpdate_of_storage hstorage _, rfl⟩

theorem pgAttrsToArrowSchema_eq_ok_iff : pgAttrsToArrowSchema attrs = .ok schema ↔
    List.Forall₂ (fun att field => pgOidToArrowType att.typid = .ok field.dataType ∧
      field.name = att.name ∧ field.nullable = !att.notNull) attrs schema := by
  rw [pgAttrsToArrowSchema, mapM_eq_ok_iff]
  refine iff_of_eq (congrArg (List.Forall₂ · attrs schema) ?_)
  funext att field
  refine propext (except_bind_eq_ok.trans ?_)
  constructor
  · rintro ⟨ty, hty, h⟩
    obtain rfl := Except.ok.inj h
    exact ⟨hty, rfl, rfl⟩
  · rintro ⟨hty, hname, hnullable⟩
    refine ⟨field.dataType, hty, ?_⟩
    rw [← hname, ← hnullable]
    rfl

/-- The schema of the plan has the columns of a batch exactly when these are one for each
attribute, of its type. -/
theorem exists_schema_iff :
    (∃ schema, pgAttrsToArrowSchema attrs = .ok schema ∧
        schema.map Field.dataType = batch.columns.map Column.dataType) ↔
      batch.columns.length = attrs.length ∧ ∀ (a : ℕ) att col, attrs[a]? = some att →
        batch.columns[a]? = some col → pgOidToArrowType att.typid = .ok col.dataType := by
  constructor
  · rintro ⟨schema, hschema, htypes⟩
    have hall := pgAttrsToArrowSchema_eq_ok_iff.mp hschema
    refine ⟨?_, fun a att col hatt hcol => ?_⟩
    · rw [hall.length_eq]
      simpa using (congrArg List.length htypes).symm
    · obtain ⟨field, hfield, hty, -⟩ := forall₂_getElem? hall hatt
      have htype := congrArg (·[a]?) htypes
      simp only [List.getElem?_map, hfield, hcol, Option.map_some, Option.some.injEq] at htype
      rw [hty, htype]
  · rintro ⟨hcount, hcolumns⟩
    have hfield : ∀ att ∈ attrs, ∃ field : Field, pgOidToArrowType att.typid = .ok field.dataType ∧
        field.name = att.name ∧ field.nullable = !att.notNull := by
      intro att hatt
      obtain ⟨a, ha⟩ := List.getElem?_of_mem hatt
      have hlt : a < batch.columns.length := hcount ▸ (List.getElem?_eq_some_iff.mp ha).1
      exact ⟨⟨att.name, _, !att.notNull⟩, hcolumns a att _ ha (List.getElem?_eq_getElem hlt), rfl, rfl⟩
    obtain ⟨schema, hall⟩ := exists_forall₂ hfield
    refine ⟨schema, pgAttrsToArrowSchema_eq_ok_iff.mpr hall, ?_⟩
    refine List.ext_getElem (by simp [← hall.length_eq, hcount]) fun a h₁ h₂ => ?_
    simp only [List.length_map] at h₁ h₂
    obtain ⟨att, hatt, hty, -⟩ := forall₂_getElem? hall.flip (List.getElem?_eq_getElem h₁)
    have htype := hcolumns a att _ hatt (List.getElem?_eq_getElem h₂)
    simp only [List.getElem_map]
    exact Except.ok.inj (hty.symm.trans htype)

/-- Of a batch that can be read, only the types that are not canonical and the partition columns
have to be looked at. -/
theorem ReadableBatch.types_iff (hread : ReadableBatch attrs opts batch)
    (hcount : batch.columns.length = attrs.length) :
    (∀ (a : ℕ) att col, attrs[a]? = some att → batch.columns[a]? = some col →
        pgOidToArrowType att.typid = .ok col.dataType) ↔
      (∀ (a : ℕ) col, batch.columns[a]? = some col → ¬ opts.Declares attrs a →
        col.dataType.isCanonical = true) ∧
      ∀ (a : ℕ) att col, attrs[a]? = some att → batch.columns[a]? = some col →
        opts.Declares attrs a → pgOidToArrowType att.typid = .ok col.dataType := by
  have haccepted : ∀ {a : ℕ} {att : Attribute} {col : Column}, attrs[a]? = some att →
      batch.columns[a]? = some col → ¬ opts.Declares attrs a →
        AcceptedPair col.dataType att.typid := by
    intro a att col hatt hcol hstorage
    obtain ⟨col', hcol', haccepted⟩ := hread.column a att hatt hstorage
    obtain rfl : col = col' := Option.some.inj (hcol.symm.trans hcol')
    exact haccepted
  constructor
  · intro h
    refine ⟨fun a col hcol hstorage => ?_, fun a att col hatt hcol _ => h a att col hatt hcol⟩
    have hlt : a < attrs.length := hcount ▸ (List.getElem?_eq_some_iff.mp hcol).1
    have hatt := List.getElem?_eq_getElem hlt
    exact (haccepted hatt hcol hstorage).pgOidToArrowType_iff.mp (h a _ col hatt hcol)
  · rintro ⟨hstorage, hpartition⟩ a att col hatt hcol
    by_cases hdeclared : opts.Declares attrs a
    · exact hpartition a att col hatt hcol hdeclared
    · exact (haccepted hatt hcol hdeclared).pgOidToArrowType_iff.mpr (hstorage a col hcol hdeclared)

end Plan

/-! ### The overrides of a statement -/

section Overrides

variable {attrs : List Attribute} {cmd : ModifyCommand} {plan : PlanColumns} {slot : Tuple}
  {sets : List (ℕ × Tuple)} {edits : BlobEdits}

/-- The array of a value that is set. -/
structure SetArray (oid : Oid) (v : Option Datum) (field : Field) (array : Column) : Prop where
  dataType_eq : array.dataType = field.dataType
  length_eq : array.values.length = 1
  appended : appendOne oid v = .ok (array.cell 0)
  notNull : field.nullable = false → array.cell 0 ≠ none

theorem datumToSingleRowArray_eq_ok {oid : Oid} {v : Option Datum} {field : Field} {array : Column}
    (h : datumToSingleRowArray oid v field = .ok array) : SetArray oid v field array := by
  unfold datumToSingleRowArray at h
  split_ifs at h
  obtain ⟨cell, hcell, h⟩ := except_bind_eq_ok.mp h
  split_ifs at h with htyped
  obtain ⟨b, hb, h⟩ := except_bind_eq_ok.mp h
  obtain rfl := Except.ok.inj h
  refine ⟨rfl, rfl, hcell, fun hfield => ?_⟩
  have hlength : ∀ c ∈ [(⟨field.dataType, [cell], by simpa using htyped⟩ : Column)],
      c.values.length = 1 := by simp
  have hallowed := ((RecordBatch.tryNew_eq_ok_iff (by simp) rfl hlength).mp hb).2.2 _
    List.mem_cons_self hfield
  intro hnull
  exact hallowed (List.mem_singleton.mpr hnull.symm)

/-- The loop over the SET list sets its columns, and leaves the others. -/
theorem overrideValues_spec {values values' : List (Option Column)} {cols : List ℕ}
    (h : overrideValues plan slot values cols = .ok values')
    (hlen : values.length = plan.schema.length) (col : ℕ) :
    (col ∈ cols → ∃ field array, plan.schema[col]? = some field ∧
        SetArray (plan.pgOids.getD col 0) (slot.getD col none) field array ∧
        values'.getD col none = some array) ∧
      (col ∉ cols → values'.getD col none = values.getD col none) := by
  induction cols generalizing values with
  | nil =>
    obtain rfl := Except.ok.inj h
    exact ⟨fun hmem => absurd hmem List.not_mem_nil, fun _ => rfl⟩
  | cons c cols ih =>
    rw [overrideValues] at h
    split at h
    · cases h
    · rename_i field hfield
      obtain ⟨array, harray, h⟩ := except_bind_eq_ok.mp h
      obtain ⟨hin, hout⟩ := ih h (by simpa using hlen)
      have hlt : c < values.length := hlen ▸ (List.getElem?_eq_some_iff.mp hfield).1
      by_cases hcols : col ∈ cols
      · exact ⟨fun _ => hin hcols, fun hnot => absurd (List.mem_cons_of_mem _ hcols) hnot⟩
      · constructor
        · intro hmem
          obtain rfl : col = c := by simpa [hcols] using hmem
          refine ⟨field, array, hfield, datumToSingleRowArray_eq_ok harray, ?_⟩
          rw [hout hcols]
          simp [hlt]
        · intro hnot
          have hne : c ≠ col := fun heq => hnot (heq ▸ List.mem_cons_self)
          rw [hout hcols]
          simp [hne]

/-- Lists of related entries under the same keys have related values under each. -/
theorem forall₂_lookup {α β : Type} {R : α → β → Prop} {l : List (ℕ × α)} {m : List (ℕ × β)}
    (h : List.Forall₂ (fun x y => y.1 = x.1 ∧ R x.2 y.2) l m) (k : ℕ) :
    Option.Rel R (l.lookup k) (m.lookup k) := by
  induction h with
  | nil => exact .none
  | @cons x y l m hxy _ ih =>
    obtain ⟨k₁, v⟩ := x
    obtain ⟨k₂, w⟩ := y
    obtain ⟨hkey, hvw⟩ : k₂ = k₁ ∧ R v w := hxy
    subst hkey
    rw [List.lookup_cons, List.lookup_cons]
    cases k == k₂ with
    | true => exact .some hvw
    | false => exact ih

/-- A slot that is set is overridden with the array of its value, another one is not. -/
theorem RecordedUpdates.overrideAt (h : RecordedUpdates plan sets edits)
    (hplan : plan.updateAttnums = cmd.updateAttnums) (abs a : ℕ) :
    Option.Rel (fun slot array => ∃ field, plan.schema[a]? = some field ∧
      SetArray (plan.pgOids.getD a 0) (slot.getD a none) field array)
      (cmd.setRow sets abs a) (edits.overrideAt abs a) := by
  rw [ModifyCommand.setRow, BlobEdits.overrideAt, ← hplan]
  have hrel := forall₂_lookup (R := fun slot o => rowOverride plan slot = .ok o) h.overrides abs
  generalize sets.lookup abs = slot? at hrel
  generalize edits.updates.lookup abs = override? at hrel
  cases hrel with
  | none => split_ifs <;> exact .none
  | @some slot o hoverride =>
    obtain ⟨values, hvalues, ho⟩ := except_bind_eq_ok.mp hoverride
    obtain rfl := Except.ok.inj ho
    obtain ⟨hin, hout⟩ := overrideValues_spec hvalues List.length_replicate a
    rw [Option.bind_eq_bind, Option.bind_some]
    split_ifs with ha
    · obtain ⟨field, array, hfield, harray, hvalue⟩ := hin ha
      rw [hvalue]
      exact .some ⟨field, hfield, harray⟩
    · rw [hout ha]
      simp

theorem RecordedUpdates.distinct_updates (h : RecordedUpdates plan sets edits) :
    (edits.updates.map Prod.fst).Nodup := by
  have hkeys : edits.updates.map Prod.fst = sets.map Prod.fst := by
    rw [← List.forall₂_eq_eq_eq, List.forall₂_map_left_iff, List.forall₂_map_right_iff]
    exact h.overrides.flip.imp fun _ _ hone => hone.1
  rw [hkeys]
  exact h.distinct

/-- The overrides have the types of the schema. -/
theorem RecordedUpdates.fits (h : RecordedUpdates plan sets edits)
    (hplan : plan.updateAttnums = cmd.updateAttnums) {a : ℕ} {field : Field}
    (hfield : plan.schema[a]? = some field) : edits.Fits a field.dataType := by
  intro abs array harray
  have hrel := h.overrideAt hplan abs a
  rw [harray] at hrel
  generalize cmd.setRow sets abs a = slot? at hrel
  cases hrel with
  | some hset =>
    obtain ⟨field', hfield', hset⟩ := hset
    obtain rfl : field = field' := Option.some.inj (hfield.symm.trans hfield')
    exact ⟨hset.length_eq, hset.dataType_eq⟩

/-- The new slot is what the statement says. -/
theorem RecordedUpdates.slotAfter (h : RecordedUpdates plan sets edits)
    (hplan : plan.updateAttnums = cmd.updateAttnums) (hoids : plan.pgOids = attrs.map Attribute.typid)
    {a : ℕ} (ha : a < attrs.length) (abs : ℕ) (old : Option ArrowValue) :
    SlotAfter attrs cmd sets abs a old (edits.newCell abs a old) := by
  have hatt := List.getElem?_eq_getElem ha
  have hoid : plan.pgOids.getD a 0 = attrs[a].typid := by
    rw [hoids, List.getD_eq_getElem?_getD, List.getElem?_map, hatt]
    rfl
  have hrel := h.overrideAt hplan abs a
  rw [SlotAfter, BlobEdits.newCell]
  generalize cmd.setRow sets abs a = slot? at hrel
  generalize edits.overrideAt abs a = override? at hrel
  cases hrel with
  | none => rfl
  | some hset =>
    obtain ⟨field, -, hset⟩ := hset
    exact ⟨attrs[a], hatt, hoid ▸ hset.appended⟩

/-- In a column that allows no NULL, a new slot is NULL when it was and is not set. -/
theorem RecordedUpdates.newCell_ne_none_iff (h : RecordedUpdates plan sets edits)
    (hplan : plan.updateAttnums = cmd.updateAttnums) {a : ℕ} {field : Field}
    (hfield : plan.schema[a]? = some field) (hnull : field.nullable = false) (abs : ℕ)
    (old : Option ArrowValue) : edits.newCell abs a old ≠ none ↔
      (old = none → (cmd.setRow sets abs a).isSome = true) := by
  have hrel := h.overrideAt hplan abs a
  rw [BlobEdits.newCell]
  generalize cmd.setRow sets abs a = slot? at hrel
  generalize edits.overrideAt abs a = override? at hrel
  cases hrel with
  | none => simp
  | some hset =>
    obtain ⟨field', hfield', hset⟩ := hset
    obtain rfl : field = field' := Option.some.inj (hfield.symm.trans hfield')
    simp [hset.notNull hnull]

end Overrides

/-! ### The condition -/

section Condition

variable {attrs : List Attribute} {opts : PartitionOptions} {cmd : ModifyCommand}
  {sets : List (ℕ × Tuple)} {edits : BlobEdits} {baseOffset : ℕ} {batch : RecordBatch}

/-- An edited batch is the batch after the statement. -/
theorem RecordedUpdates.batchAfter {plan : PlanColumns} (h : RecordedUpdates plan sets edits)
    (hplan : plan.updateAttnums = cmd.updateAttnums) (hoids : plan.pgOids = attrs.map Attribute.typid)
    (hcount : batch.columns.length = attrs.length) {out : RecordBatch}
    (hout : edits.Edited baseOffset batch out) :
    BatchAfter attrs cmd sets edits baseOffset batch out := by
  refine ⟨hout.types, ?_⟩
  rw [hout.rows, List.forall₂_map_right_iff, List.forall₂_same]
  intro row _
  refine ⟨by simp [RecordBatch.row], fun a ha => ?_⟩
  have hnew : ((batch.row row).mapIdx fun colIdx old =>
      edits.newCell (baseOffset + row) colIdx old).getD a none =
        edits.newCell (baseOffset + row) a ((batch.row row).getD a none) := by
    simp [RecordBatch.row, ha]
  rw [hnew]
  exact h.slotAfter hplan hoids (hcount ▸ ha) _ _

section Kernel

variable {plan : PlanColumns} (hupdates : RecordedUpdates plan sets edits)
  (hplan : plan.updateAttnums = cmd.updateAttnums)
  (hschema : pgAttrsToArrowSchema attrs = .ok plan.schema)
  (htypes : plan.schema.map Field.dataType = batch.columns.map Column.dataType)
  (hne : batch.columns ≠ []) (hrows : baseOffset + batch.numRows < 2 ^ 32)

include hupdates hplan hschema htypes hne hrows

/-- The kernel on the columns of the plan: it fails only for a NULL that was there. -/
theorem RecordedUpdates.kernel :
    ((∃ out, applyEditsBatch edits baseOffset plan.schema batch = .ok out) ↔
        ∀ (a : ℕ) att col, attrs[a]? = some att → batch.columns[a]? = some col →
          att.notNull = true → ∀ row < batch.numRows, col.cell row = none →
            (cmd.setRow sets (baseOffset + row) a).isSome = true) ∧
      ∀ out, applyEditsBatch edits baseOffset plan.schema batch = .ok out →
        edits.Edited baseOffset batch out := by
  have hall := pgAttrsToArrowSchema_eq_ok_iff.mp hschema
  have hfits : ∀ (a : ℕ) col, batch.columns[a]? = some col → edits.Fits a col.dataType := by
    intro a col hcol
    have htype := congrArg (·[a]?) htypes
    simp only [List.getElem?_map, hcol, Option.map_some, Option.map_eq_some_iff] at htype
    obtain ⟨field, hfield, hty⟩ := htype
    exact hty ▸ hupdates.fits hplan hfield
  obtain ⟨hiff, hedited⟩ := applyEditsBatch_spec hupdates.distinct_updates hne hrows htypes
    fun a col hcol => (hfits a col hcol).within baseOffset batch.numRows
  refine ⟨hiff.trans ?_, hedited⟩
  constructor
  · intro h a att col hatt hcol hnotNull row hrow
    obtain ⟨field, hfield, -, -, hnullable⟩ := forall₂_getElem? hall hatt
    have hfalse : field.nullable = false := by rw [hnullable, hnotNull]; rfl
    exact (hupdates.newCell_ne_none_iff hplan hfield hfalse _ _).mp
      (h a field col hfield hcol hfalse row hrow)
  · intro h a field col hfield hcol hfalse row hrow
    obtain ⟨att, hatt, -, -, hnullable⟩ := forall₂_getElem? hall.flip hfield
    have hnotNull : att.notNull = true := by simpa [hfalse] using hnullable
    exact (hupdates.newCell_ne_none_iff hplan hfield hfalse _ _).mpr
      (h a att col hatt hcol hnotNull row hrow)

end Kernel

/-- **A table that can be read can be rewritten exactly when its blobs have one column of the
canonical type for each attribute, and no NULL where the attribute allows none.** -/
theorem table_rewritable_iff (hread : ReadableBatch attrs opts batch)
    (hstorage : ∀ a ∈ cmd.updateAttnums, ¬ opts.Declares attrs a)
    (hrows : baseOffset + batch.numRows < 2 ^ 32)
    (hrecorded : ∀ plan, buildPlanColumns attrs opts cmd = .ok plan →
      RecordedUpdates plan sets edits) :
    Rewritable attrs opts cmd sets edits baseOffset batch ↔
      PlanFits attrs opts cmd sets baseOffset batch := by
  constructor
  · rintro ⟨plan, out, hplan, htypes, hout, -⟩
    have hupdates := hrecorded plan hplan
    obtain ⟨schema, hschema, rfl⟩ := (buildPlanColumns_eq_ok_iff hread.live hstorage).mp hplan
    obtain ⟨hcount, hcolumns⟩ := exists_schema_iff.mp ⟨schema, hschema, htypes⟩
    obtain ⟨hcanonical, hpartition⟩ := (hread.types_iff hcount).mp hcolumns
    have hne := columns_ne_nil_of_applyEditsBatch hout
    have hattrs : attrs ≠ [] := by
      rwa [← List.length_pos_iff, ← hcount, List.length_pos_iff]
    obtain ⟨hiff, -⟩ := hupdates.kernel rfl hschema htypes hne hrows
    exact ⟨hattrs, hcount, hcanonical, hpartition, hiff.mp ⟨out, hout⟩⟩
  · intro hfits
    have hcolumns := (hread.types_iff hfits.count).mpr ⟨hfits.storage, hfits.partition⟩
    obtain ⟨schema, hschema, htypes⟩ := exists_schema_iff.mpr ⟨hfits.count, hcolumns⟩
    have hplan := (buildPlanColumns_eq_ok_iff hread.live hstorage).mpr ⟨schema, hschema, rfl⟩
    have hupdates := hrecorded _ hplan
    have hne : batch.columns ≠ [] := by
      rw [← List.length_pos_iff, hfits.count, List.length_pos_iff]
      exact hfits.nonempty
    obtain ⟨hiff, hedited⟩ := hupdates.kernel rfl hschema htypes hne hrows
    obtain ⟨out, hout⟩ := hiff.mpr hfits.notNull
    exact ⟨_, out, hplan, htypes, hout, hupdates.batchAfter rfl rfl hfits.count (hedited out hout)⟩

end Condition

/-! ### Two tables -/

/-- The attributes `id integer` and `region text`. -/
def idAndRegion : List Attribute :=
  [⟨"id", int4Oid, true, false⟩, ⟨"region", textOid, false, false⟩]

/-- A batch of two rows with both columns. -/
def twoRegions : RecordBatch where
  numRows := 2
  columns := [⟨.int32, [some (.int32 1), some (.int32 2)], by decide⟩,
    ⟨.utf8, [some (.utf8 "eu"), none], by decide⟩]
  length_eq := by decide

/-- The table without partition columns; its blobs have both columns. -/
def unpartitioned : PartitionOptions := ⟨[], [], .nil⟩

/-- `UPDATE … SET region = 'us'`, for the second row. -/
def setSecondRegion : List (ℕ × Tuple) := [(1, [some (.int4 2), some (.text "us")])]

/-- What it records. -/
def secondRegionEdits : BlobEdits :=
  ⟨[], [(1, ⟨[none, some ⟨.utf8, [some (.utf8 "us")], by decide⟩]⟩)]⟩

/-- It can be rewritten. -/
theorem second_region_rewritten :
    Rewritable idAndRegion unpartitioned (.update [1]) setSecondRegion secondRegionEdits 0
      twoRegions := by
  have hnone : ∀ a, ¬ unpartitioned.Declares idAndRegion a := by
    rintro a ⟨name, hname, -⟩
    cases hname
  have hread : ReadableBatch idAndRegion unpartitioned twoRegions := by
    refine ⟨by decide, fun a att hatt _ => ?_⟩
    match a, hatt with
    | 0, hatt =>
      obtain rfl := Option.some.inj hatt
      exact ⟨_, rfl, .permissive, .int32 1, _, rfl⟩
    | 1, hatt =>
      obtain rfl := Option.some.inj hatt
      exact ⟨_, rfl, .permissive, .utf8 "eu", _, rfl⟩
  have hrecorded : ∀ plan, buildPlanColumns idAndRegion unpartitioned (.update [1]) = .ok plan →
      RecordedUpdates plan setSecondRegion secondRegionEdits := by
    intro plan hplan
    obtain rfl := Except.ok.inj hplan
    exact ⟨by decide, .cons ⟨rfl, rfl⟩ .nil⟩
  refine (table_rewritable_iff hread (fun a _ => hnone a) (by decide) hrecorded).mpr ?_
  refine ⟨by decide, rfl, fun a col hcol _ => ?_, fun a _ _ _ _ h => absurd h (hnone a), ?_⟩
  · have hcanonical : ∀ col ∈ twoRegions.columns, col.dataType.isCanonical = true := by decide
    exact hcanonical col (List.mem_of_getElem? hcol)
  · intro a att col hatt hcol hnotNull row hrow hnull
    match a, hatt, hcol with
    | 0, hatt, hcol =>
      obtain rfl := Option.some.inj hcol
      have hrow' : row = 0 ∨ row = 1 := by
        have : row < 2 := hrow
        omega
      rcases hrow' with rfl | rfl <;> cases hnull
    | 1, hatt, hcol =>
      obtain rfl := Option.some.inj hatt
      cases hnotNull

/-- The same relation, partitioned by `region`: its blobs have the column `id` only. -/
def byRegion : PartitionOptions := ⟨["region"], [("region", .text)], .cons (by decide) .nil⟩

theorem typed_one : ∀ v ∈ [some (ArrowValue.int32 1)], cellTyped .int32 v = true := by decide

/-- A batch of one of its blobs. -/
def oneId : RecordBatch where
  numRows := 1
  columns := [⟨.int32, [some (.int32 1)], typed_one⟩]
  length_eq := by decide

/-- The scan reads it, and the delete of its row cannot rewrite it: the plan's schema has two
columns. -/
theorem partitioned_table_not_rewritable :
    ReadableBatch idAndRegion byRegion oneId ∧
      ¬ Rewritable idAndRegion byRegion .delete [] ⟨[0], []⟩ 0 oneId ∧
      ∃ plan, buildPlanColumns idAndRegion byRegion .delete = .ok plan ∧
        applyEditsBatch ⟨[0], []⟩ 0 plan.schema oneId =
          .error (.error (.arrow "number of columns(1) must match number of fields(2) in schema")) := by
  refine ⟨⟨by decide, fun a att hatt hstorage => ?_⟩, ?_, _, rfl, by decide⟩
  · match a, hatt with
    | 0, hatt =>
      obtain rfl := Option.some.inj hatt
      exact ⟨_, rfl, .permissive, .int32 1, _, rfl⟩
    | 1, _ => exact absurd ⟨"region", List.mem_singleton_self _, by decide⟩ hstorage
  · rintro ⟨plan, out, hplan, htypes, -⟩
    obtain rfl := Except.ok.inj hplan
    cases congrArg List.length htypes

end ParquetAzureFdw
