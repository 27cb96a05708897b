/-
# Rows written and read back

The rows of a table are appended through `append_one` to the builders of a batch, and the batch is
read with `arrow_value_to_datum`.  The README lists the types that can be written, and
`pg_oid_to_arrow_type` gives an Arrow type to each of them, with a builder.  `append_one` has no
branch for six of them (`unappendedOids`) and refuses every value of those types; what it
appends is read back as the value it was.

A table makes the round trip exactly when it has a column, no NULL in a column that allows none,
and only NULLs in the columns of the six types (`write_read_round_trip_iff`).
-/

import ParquetAzureFdw.Modify.Builders

namespace ParquetAzureFdw

/-- The types with a mark under "Write" in the README's table. -/
def documentedOids : List Oid :=
  [boolOid, int2Oid, int4Oid, int8Oid, float4Oid, float8Oid, textOid, varcharOid, byteaOid, dateOid,
    timestampOid, timestamptzOid, numericOid, jsonbOid]

/-- Those of them that `append_one` has no branch for. -/
def unappendedOids : List Oid :=
  [byteaOid, dateOid, timestampOid, timestamptzOid, numericOid, jsonbOid]

/-- A value of a Postgres type. -/
def Datum.OfType (oid : Oid) : Datum → Prop
  | .bool _ => oid = boolOid
  | .int2 _ => oid = int2Oid
  | .int4 _ => oid = int4Oid
  | .int8 _ => oid = int8Oid
  | .float4 _ => oid = float4Oid
  | .float8 _ => oid = float8Oid
  | .text _ => oid = textOid ∨ oid = varcharOid
  | .bytea _ => oid = byteaOid
  | .date _ => oid = dateOid
  | .timestamp _ => oid = timestampOid
  | .timestamptz _ => oid = timestamptzOid
  | .numeric _ => oid = numericOid
  | .jsonb _ => oid = jsonbOid

/-- The rows, appended to new builders one after the other. -/
def writeTuples (schema : List Field) (oids : List Oid) (rows : List Tuple) : FdwResult RecordBatch := do
  let builders ← RecordBatchBuilders.new schema
  let builders ← rows.foldlM (fun b tuple => b.appendCells 0 (oids.zip tuple)) builders
  builders.finish

/-- The rows of a batch, read as the scan reads them. -/
def readTuples (ext : Externals) (oids : List Oid) (batch : RecordBatch) : FdwResult (List Tuple) :=
  (List.range batch.numRows).mapM fun i =>
    (batch.columns.zip oids).mapM fun c => arrowValueToDatum ext c.1 i c.2

/-- The rows of a table are written, and the same rows are read. -/
def RoundTrips (ext : Externals) (attrs : List Attribute) (rows : List Tuple) : Prop :=
  ∃ schema batch, pgAttrsToArrowSchema attrs = .ok schema ∧
    writeTuples schema (attrs.map Attribute.typid) rows = .ok batch ∧
    readTuples ext (attrs.map Attribute.typid) batch = .ok rows

/-! ### One value -/

section Value

variable {oid : Oid} {d : Datum}

/-- Each documented type has an Arrow type, and that a builder. -/
theorem exists_arrowType (h : oid ∈ documentedOids) :
    ∃ ty, pgOidToArrowType oid = .ok ty ∧ ty.hasBuilder = true := by
  simp only [documentedOids, List.mem_cons, List.not_mem_nil, or_false] at h
  rcases h with rfl | rfl | rfl | rfl | rfl | rfl | rfl | rfl | rfl | rfl | rfl | rfl | rfl | rfl <;>
    exact ⟨_, rfl, rfl⟩

/-- **A value is appended unless it is of one of the six types.** -/
theorem exists_appendOne_iff (h : d.OfType oid) :
    (∃ c, appendOne oid (some d) = .ok c) ↔ oid ∉ unappendedOids := by
  cases d with
  | bool | int2 | int4 | int8 | float4 | float8 =>
    obtain rfl : oid = _ := h
    exact iff_of_true ⟨_, rfl⟩ (by decide)
  | text =>
    rcases (h : oid = textOid ∨ oid = varcharOid) with rfl | rfl <;>
      exact iff_of_true ⟨_, rfl⟩ (by decide)
  | bytea | date | timestamp | timestamptz | numeric | jsonb =>
    obtain rfl : oid = _ := h
    exact iff_of_false nofun (by decide)

theorem appendOne_null_iff {v : Option Datum} {cell : Option ArrowValue}
    (h : appendOne oid v = .ok cell) : cell = none ↔ v = none := by
  cases v with
  | none => exact iff_of_true (Except.ok.inj h).symm rfl
  | some d =>
    cases d with
    | bool | int2 | int4 | int8 | float4 | float8 | text =>
      obtain ⟨-, rfl⟩ := appendOne.eq_of_ite h
      exact iff_of_false nofun nofun
    | _ => cases h

end Value

/-! ### The builders -/

section Rows

variable {attrs : List Attribute} {schema : List Field} {rows : List Tuple} {tuple : Tuple}
  {row : ArrowRow} {stored : List ArrowRow} {b b' : RecordBatchBuilders}

/-- The types of the builders are those of the attributes. -/
theorem builder_arrowType (hschema : pgAttrsToArrowSchema attrs = .ok schema)
    (hb : b.Holds schema stored) {k : ℕ} {oid : Oid} {c : Column}
    (hoid : (attrs.map Attribute.typid)[k]? = some oid) (hc : b.builders[k]? = some c) :
    pgOidToArrowType oid = .ok c.dataType := by
  rw [List.getElem?_map, Option.map_eq_some_iff] at hoid
  obtain ⟨att, hatt, rfl⟩ := hoid
  obtain ⟨field, hfield, h⟩ := forall₂_getElem? (mapM_eq_ok_iff.mp hschema) hatt
  obtain ⟨ty, hty, h⟩ := except_bind_eq_ok.mp h
  have htypes := congrArg (·[k]?) hb.types
  simp only [List.getElem?_map, hc, hfield, ← Except.ok.inj h, Option.map_some,
    Option.some.injEq] at htypes
  rw [hty, htypes]

/-- A row is appended when each of its values is. -/
theorem exists_appendCells_iff (hschema : pgAttrsToArrowSchema attrs = .ok schema)
    (hb : b.Holds schema stored) (hlength : tuple.length = attrs.length) :
    (∃ b', b.appendCells 0 ((attrs.map Attribute.typid).zip tuple) = .ok b') ↔
      ∃ row, storedRow ((attrs.map Attribute.typid).zip tuple) = .ok row := by
  have hwidth : schema.length = attrs.length := (mapM_eq_ok_iff.mp hschema).length_eq.symm
  have hcells : ((attrs.map Attribute.typid).zip tuple).length = schema.length := by
    simp [hlength, hwidth]
  constructor
  · rintro ⟨b', h⟩
    obtain ⟨row, hrow, -⟩ := hb.append hcells h
    exact ⟨row, hrow⟩
  · rintro ⟨row, hrow⟩
    have hforall := mapM_eq_ok_iff.mp hrow
    have htyped : List.Forall₂ (fun c v => cellTyped c.dataType v = true) b.builders row := by
      refine forall₂_of_getElem? ?_ fun k c v hc hv => ?_
      · rw [hb.length_builders, ← hcells, hforall.length_eq]
      · obtain ⟨⟨oid, d⟩, hcell, happend⟩ := forall₂_getElem? hforall.flip hv
        obtain ⟨hoid, -⟩ := List.getElem?_zip_eq_some.mp hcell
        exact appendOne_typed (builder_arrowType hschema hb hoid hc) happend
    obtain ⟨cols', hpushed⟩ := exists_pushed htyped
    exact ⟨_, (appendCells_eq_ok_iff [] (hcells.trans hb.length_builders.symm)).mpr
      ⟨row, cols', hrow, hpushed, rfl⟩⟩

/-- **All rows are appended when each value of each row is.** -/
theorem exists_foldlM_appendCells_iff (hschema : pgAttrsToArrowSchema attrs = .ok schema)
    (hb : b.Holds schema stored) (hlength : ∀ tuple ∈ rows, tuple.length = attrs.length) :
    (∃ b', rows.foldlM (fun b tuple => b.appendCells 0 ((attrs.map Attribute.typid).zip tuple)) b =
        .ok b') ↔
      ∀ tuple ∈ rows, ∃ row, storedRow ((attrs.map Attribute.typid).zip tuple) = .ok row := by
  induction rows generalizing b stored with
  | nil => exact iff_of_true ⟨b, rfl⟩ nofun
  | cons tuple rows ih =>
    have hone := exists_appendCells_iff hschema hb (hlength tuple List.mem_cons_self)
    have hwidth : ((attrs.map Attribute.typid).zip tuple).length = schema.length := by
      simp [hlength tuple List.mem_cons_self, ← (mapM_eq_ok_iff.mp hschema).length_eq]
    simp only [List.foldlM_cons, except_bind_eq_ok, List.forall_mem_cons, ← hone]
    constructor
    · rintro ⟨b₂, b₁, h₁, h₂⟩
      obtain ⟨row, -, hb₁⟩ := hb.append hwidth h₁
      exact ⟨⟨b₁, h₁⟩, (ih hb₁ fun t ht => hlength t (List.mem_cons_of_mem _ ht)).mp ⟨b₂, h₂⟩⟩
    · rintro ⟨⟨b₁, h₁⟩, hrest⟩
      obtain ⟨row, -, hb₁⟩ := hb.append hwidth h₁
      obtain ⟨b₂, h₂⟩ := (ih hb₁ fun t ht => hlength t (List.mem_cons_of_mem _ ht)).mpr hrest
      exact ⟨b₂, b₁, h₁, h₂⟩

/-- The builders then hold what was stored for the rows. -/
theorem foldlM_appendCells_holds (hschema : pgAttrsToArrowSchema attrs = .ok schema)
    (hb : b.Holds schema stored) (hlength : ∀ tuple ∈ rows, tuple.length = attrs.length)
    (h : rows.foldlM (fun b tuple => b.appendCells 0 ((attrs.map Attribute.typid).zip tuple)) b =
      .ok b') : ∃ more, List.Forall₂ (fun tuple row =>
        storedRow ((attrs.map Attribute.typid).zip tuple) = .ok row) rows more ∧
      b'.Holds schema (stored ++ more) := by
  induction rows generalizing b stored with
  | nil =>
    obtain rfl := Except.ok.inj h
    exact ⟨[], .nil, by rwa [List.append_nil]⟩
  | cons tuple rows ih =>
    rw [List.foldlM_cons] at h
    obtain ⟨b₁, h₁, h⟩ := except_bind_eq_ok.mp h
    have hwidth : ((attrs.map Attribute.typid).zip tuple).length = schema.length := by
      simp [hlength tuple List.mem_cons_self, ← (mapM_eq_ok_iff.mp hschema).length_eq]
    obtain ⟨row, hrow, hb₁⟩ := hb.append hwidth h₁
    obtain ⟨more, hmore, hholds⟩ := ih hb₁ (fun t ht => hlength t (List.mem_cons_of_mem _ ht)) h
    exact ⟨row :: more, .cons hrow hmore, by rwa [List.append_assoc] at hholds⟩

/-- What was stored for slot `k` of a row. -/
theorem stored_slot (h : storedRow ((attrs.map Attribute.typid).zip tuple) = .ok row) {k : ℕ}
    {att : Attribute} {v : Option Datum} (hatt : attrs[k]? = some att) (hv : tuple[k]? = some v) :
    ∃ cell, row[k]? = some cell ∧ appendOne att.typid v = .ok cell := by
  have hcell : ((attrs.map Attribute.typid).zip tuple)[k]? = some (att.typid, v) :=
    List.getElem?_zip_eq_some.mpr ⟨by rw [List.getElem?_map, hatt]; rfl, hv⟩
  exact forall₂_getElem? (mapM_eq_ok_iff.mp h) hcell

/-- **What is written is read back.** -/
theorem readTuples_of_finish (ext : Externals) (hschema : pgAttrsToArrowSchema attrs = .ok schema)
    (hlength : ∀ tuple ∈ rows, tuple.length = attrs.length)
    (hstored : List.Forall₂ (fun tuple row =>
      storedRow ((attrs.map Attribute.typid).zip tuple) = .ok row) rows stored)
    (hb : b.Holds schema stored) {batch : RecordBatch} (hfinish : b.finish = .ok batch) :
    readTuples ext (attrs.map Attribute.typid) batch = .ok rows := by
  obtain ⟨hbatch, hcolumns⟩ := hb.finish_rows hfinish
  have hcount : batch.numRows = rows.length := by
    rw [hstored.length_eq, ← hbatch, RecordBatch.rows, List.length_map, List.length_range]
  have hwidth : schema.length = attrs.length := (mapM_eq_ok_iff.mp hschema).length_eq.symm
  refine mapM_eq_ok_iff.mpr (forall₂_of_getElem? (by simp [hcount]) fun i i' tuple hi htuple => ?_)
  obtain rfl : i = i' := by
    have hlt : i < batch.numRows := hcount ▸ (List.getElem?_eq_some_iff.mp htuple).1
    rw [List.getElem?_range hlt] at hi
    exact Option.some.inj hi
  obtain ⟨row, hrow, hcells⟩ := forall₂_getElem? hstored htuple
  have htuple' := hlength tuple (List.mem_of_getElem? htuple)
  refine mapM_eq_ok_iff.mpr (forall₂_of_getElem? ?_ fun k c v hc hv => ?_)
  · simp [hcolumns, hb.length_builders, hwidth, htuple']
  · obtain ⟨hcol, hoid⟩ := List.getElem?_zip_eq_some.mp hc
    rw [hcolumns] at hcol
    have hatt := hoid
    rw [List.getElem?_map, Option.map_eq_some_iff] at hatt
    obtain ⟨att, hatt, htypid⟩ := hatt
    obtain ⟨cell, hcell, happend⟩ := stored_slot hcells hatt hv
    refine arrowValueToDatum_appendOne ext (builder_arrowType hschema hb hoid hcol) ?_
    have hvalue : c.1.cell i = cell := by
      rw [Column.cell, hb.values k c.1 hcol]
      simp [List.getD_eq_getElem?_getD, hrow, hcell]
    rw [← htypid, hvalue, happend]

theorem stored_null_iff (hlength : tuple.length = attrs.length)
    (h : storedRow ((attrs.map Attribute.typid).zip tuple) = .ok row) {k : ℕ} (hk : k < attrs.length) :
    row.getD k none = none ↔ tuple[k]? = some none := by
  have hv := List.getElem?_eq_getElem (hk.trans_eq hlength.symm)
  obtain ⟨cell, hcell, happend⟩ := stored_slot h (List.getElem?_eq_getElem hk) hv
  rw [List.getD_eq_getElem?_getD, hcell, hv, Option.getD_some, appendOne_null_iff happend,
    Option.some.injEq]

/-- A NULL stands in column `k` when it stands in slot `k` of a row. -/
theorem null_mem_values_iff (hschema : pgAttrsToArrowSchema attrs = .ok schema)
    (hlength : ∀ tuple ∈ rows, tuple.length = attrs.length)
    (hstored : List.Forall₂ (fun tuple row =>
      storedRow ((attrs.map Attribute.typid).zip tuple) = .ok row) rows stored)
    (hb : b.Holds schema stored) {k : ℕ} {c : Column} (hc : b.builders[k]? = some c) :
    none ∈ c.values ↔ ∃ tuple ∈ rows, tuple[k]? = some none := by
  have hk : k < attrs.length := by
    rw [(mapM_eq_ok_iff.mp hschema).length_eq, ← hb.length_builders]
    exact (List.getElem?_eq_some_iff.mp hc).1
  rw [hb.values k c hc, List.mem_map]
  constructor
  · rintro ⟨row, hrow, hnull⟩
    obtain ⟨i, hi⟩ := List.getElem?_of_mem hrow
    obtain ⟨tuple, htuple, hcells⟩ := forall₂_getElem? hstored.flip hi
    have hmem := List.mem_of_getElem? htuple
    exact ⟨tuple, hmem, (stored_null_iff (hlength tuple hmem) hcells hk).mp hnull⟩
  · rintro ⟨tuple, htuple, hnull⟩
    obtain ⟨i, hi⟩ := List.getElem?_of_mem htuple
    obtain ⟨row, hrow, hcells⟩ := forall₂_getElem? hstored hi
    exact ⟨row, List.mem_of_getElem? hrow, (stored_null_iff (hlength tuple htuple) hcells hk).mpr hnull⟩

/-- `RecordBatch::try_new` accepts the columns when no NULL stands where the attribute allows none. -/
theorem nulls_allowed_iff (hschema : pgAttrsToArrowSchema attrs = .ok schema)
    (hlength : ∀ tuple ∈ rows, tuple.length = attrs.length)
    (hstored : List.Forall₂ (fun tuple row =>
      storedRow ((attrs.map Attribute.typid).zip tuple) = .ok row) rows stored)
    (hb : b.Holds schema stored) :
    (∀ fc ∈ schema.zip b.builders, fc.1.nullable = false → none ∉ fc.2.values) ↔
      ∀ tuple ∈ rows, ∀ slot ∈ attrs.zip tuple, slot.2 = none → slot.1.notNull = false := by
  have hfields : List.Forall₂ (fun att field => field.nullable = !att.notNull) attrs schema := by
    refine (mapM_eq_ok_iff.mp hschema).imp fun att field h => ?_
    obtain ⟨ty, -, h⟩ := except_bind_eq_ok.mp h
    rw [← Except.ok.inj h]
  constructor
  · rintro h tuple htuple ⟨att, v⟩ hslot rfl
    obtain ⟨k, hk⟩ := List.getElem?_of_mem hslot
    obtain ⟨hatt, hv⟩ := List.getElem?_zip_eq_some.mp hk
    obtain ⟨field, hfield, hnullable⟩ := forall₂_getElem? hfields hatt
    have hlt : k < b.builders.length := by
      rw [hb.length_builders]
      exact (List.getElem?_eq_some_iff.mp hfield).1
    have hc := List.getElem?_eq_getElem hlt
    have hnull := (null_mem_values_iff hschema hlength hstored hb hc).mpr ⟨tuple, htuple, hv⟩
    by_contra hnotNull
    rw [Bool.not_eq_false] at hnotNull
    exact h (field, b.builders[k]) (List.mem_of_getElem? (List.getElem?_zip_eq_some.mpr ⟨hfield, hc⟩))
      (by rw [hnullable, hnotNull]; rfl) hnull
  · rintro h ⟨field, c⟩ hfc hnullable hnull
    obtain ⟨k, hk⟩ := List.getElem?_of_mem hfc
    obtain ⟨hfield, hc⟩ := List.getElem?_zip_eq_some.mp hk
    obtain ⟨att, hatt, hnotNull⟩ := forall₂_getElem? hfields.flip hfield
    obtain ⟨tuple, htuple, hv⟩ := (null_mem_values_iff hschema hlength hstored hb hc).mp hnull
    have hallowed := h tuple htuple (att, none)
      (List.mem_of_getElem? (List.getElem?_zip_eq_some.mpr ⟨hatt, hv⟩)) rfl
    rw [hallowed] at hnotNull
    exact absurd (hnullable.symm.trans hnotNull) nofun

end Rows

/-! ### The round trip -/

/-- A row of the table: a value for each attribute, NULL or of its type. -/
structure RowOf (attrs : List Attribute) (tuple : Tuple) : Prop where
  length_eq : tuple.length = attrs.length
  typed : ∀ slot ∈ attrs.zip tuple, ∀ d, slot.2 = some d → d.OfType slot.1.typid

/-- A slot that makes the round trip: a NULL where the column allows it, or a value that is
not of one of the six types. -/
def WritableSlot (slot : Attribute × Option Datum) : Prop :=
  match slot.2 with
  | none => slot.1.notNull = false
  | some _ => slot.1.typid ∉ unappendedOids

theorem writableSlot_iff {slot : Attribute × Option Datum} : WritableSlot slot ↔
    (slot.2 = none → slot.1.notNull = false) ∧ (slot.2 ≠ none → slot.1.typid ∉ unappendedOids) := by
  rcases slot with ⟨att, _ | d⟩ <;> simp [WritableSlot]

instance (slot : Attribute × Option Datum) : Decidable (WritableSlot slot) :=
  decidable_of_iff _ writableSlot_iff.symm

/-- A row is appended when each of its values is of a type with a branch. -/
theorem exists_storedRow_iff {attrs : List Attribute} {tuple : Tuple} (hrow : RowOf attrs tuple) :
    (∃ row, storedRow ((attrs.map Attribute.typid).zip tuple) = .ok row) ↔
      ∀ slot ∈ attrs.zip tuple, slot.2 ≠ none → slot.1.typid ∉ unappendedOids := by
  have hcells : storedRow ((attrs.map Attribute.typid).zip tuple) =
      (attrs.zip tuple).mapM fun slot => appendOne slot.1.typid slot.2 := by
    rw [storedRow, List.zip_map_left, List.mapM_map]
    rfl
  have hexists := exists_mapM_eq_ok_iff (Q := fun _ => True) (l := attrs.zip tuple)
    (f := fun slot : Attribute × Option Datum => appendOne slot.1.typid slot.2)
  simp only [implies_true, and_true] at hexists
  rw [hcells, hexists]
  refine forall₂_congr fun slot hslot => ?_
  obtain ⟨att, _ | d⟩ := slot
  · exact iff_of_true ⟨none, rfl⟩ fun h => absurd rfl h
  · rw [exists_appendOne_iff (hrow.typed _ hslot d rfl)]
    exact ⟨fun h _ => h, fun h => h (Option.some_ne_none d)⟩

/-- A table of documented types has a schema, with a builder for each field. -/
theorem exists_rowGroupBuilder_new {attrs : List Attribute}
    (hdocumented : ∀ att ∈ attrs, att.typid ∈ documentedOids) :
    ∃ schema b, pgAttrsToArrowSchema attrs = .ok schema ∧ RecordBatchBuilders.new schema = .ok b := by
  have hschema : ∃ schema, pgAttrsToArrowSchema attrs = .ok schema ∧
      ∀ field ∈ schema, field.dataType.hasBuilder = true := by
    refine exists_mapM_eq_ok_iff.mpr fun att hatt => ?_
    obtain ⟨ty, hty, hbuilder⟩ := exists_arrowType (hdocumented att hatt)
    exact ⟨⟨att.name, ty, !att.notNull⟩, by rw [hty]; rfl, hbuilder⟩
  obtain ⟨schema, hschema, hbuilders⟩ := hschema
  have hnew : ∃ builders, schema.mapM (fun field => RecordBatchBuilders.makeBuilder field.dataType) =
      .ok builders ∧ ∀ c ∈ builders, True := by
    refine exists_mapM_eq_ok_iff.mpr fun field hfield => ⟨.empty field.dataType, ?_, trivial⟩
    rw [RecordBatchBuilders.makeBuilder, if_pos (hbuilders field hfield)]
  obtain ⟨builders, hnew, -⟩ := hnew
  exact ⟨schema, ⟨schema, builders⟩, hschema, by rw [RecordBatchBuilders.new, hnew]; rfl⟩

/-- **The write/read round trip.**  The rows of a table of documented types are written and read back
as they were exactly when the table has a column and every slot is writable. -/
theorem write_read_round_trip_iff (ext : Externals) {attrs : List Attribute} {rows : List Tuple}
    (hdocumented : ∀ att ∈ attrs, att.typid ∈ documentedOids)
    (hrows : ∀ tuple ∈ rows, RowOf attrs tuple) :
    RoundTrips ext attrs rows ↔
      attrs ≠ [] ∧ ∀ tuple ∈ rows, ∀ slot ∈ attrs.zip tuple, WritableSlot slot := by
  obtain ⟨schema, b, hschema, hnew⟩ := exists_rowGroupBuilder_new hdocumented
  have hlength : ∀ tuple ∈ rows, tuple.length = attrs.length := fun t ht => (hrows t ht).length_eq
  have hfold := exists_foldlM_appendCells_iff hschema (RecordBatchBuilders.new_holds hnew) hlength
  have hempty : schema ≠ [] ↔ attrs ≠ [] := by
    rw [← List.length_pos_iff, ← List.length_pos_iff, (mapM_eq_ok_iff.mp hschema).length_eq]
  constructor
  · rintro ⟨schema', batch, hschema', hwrite, -⟩
    obtain rfl : schema' = schema := Except.ok.inj (hschema'.symm.trans hschema)
    obtain ⟨b₀, hb₀, hwrite⟩ := except_bind_eq_ok.mp hwrite
    obtain rfl : b₀ = b := Except.ok.inj (hb₀.symm.trans hnew)
    obtain ⟨b', hb', hfinish⟩ := except_bind_eq_ok.mp hwrite
    obtain ⟨stored, hstored, hholds⟩ :=
      foldlM_appendCells_holds hschema (RecordBatchBuilders.new_holds hnew) hlength hb'
    obtain ⟨hne, hnulls⟩ := hholds.exists_finish_iff.mp ⟨batch, hfinish⟩
    rw [nulls_allowed_iff hschema hlength hstored hholds] at hnulls
    refine ⟨hempty.mp hne, fun tuple htuple slot hslot => writableSlot_iff.mpr
      ⟨hnulls tuple htuple slot hslot, ?_⟩⟩
    exact (exists_storedRow_iff (hrows tuple htuple)).mp (hfold.mp ⟨b', hb'⟩ tuple htuple) slot hslot
  · rintro ⟨hne, hslots⟩
    obtain ⟨b', hb'⟩ := hfold.mpr fun tuple htuple =>
      (exists_storedRow_iff (hrows tuple htuple)).mpr fun slot hslot =>
        (writableSlot_iff.mp (hslots tuple htuple slot hslot)).2
    obtain ⟨stored, hstored, hholds⟩ :=
      foldlM_appendCells_holds hschema (RecordBatchBuilders.new_holds hnew) hlength hb'
    have hnulls := (nulls_allowed_iff hschema hlength hstored hholds).mpr
      fun tuple htuple slot hslot => (writableSlot_iff.mp (hslots tuple htuple slot hslot)).1
    obtain ⟨batch, hfinish⟩ := hholds.exists_finish_iff.mpr ⟨hempty.mpr hne, hnulls⟩
    refine ⟨schema, batch, hschema, ?_, readTuples_of_finish ext hschema hlength hstored hholds hfinish⟩
    rw [writeTuples, hnew]
    show (rows.foldlM _ b >>= RecordBatchBuilders.finish) = _
    rw [hb']
    exact hfinish

/-- A table with a text and a date. -/
def eventAttributes : List Attribute := [⟨"name", textOid, false, false⟩, ⟨"day", dateOid, false, false⟩]

/-- Rows with a NULL for the date make the round trip. -/
theorem null_dates_round_trip :
    RoundTrips .permissive eventAttributes [[some (.text "a"), none], [none, none]] := by
  refine (write_read_round_trip_iff .permissive (by decide) fun tuple htuple => ?_).mpr ⟨nofun, by decide⟩
  simp only [List.mem_cons, List.not_mem_nil, or_false] at htuple
  rcases htuple with rfl | rfl
  · exact ⟨rfl, by simp [eventAttributes, Datum.OfType]⟩
  · exact ⟨rfl, by simp [eventAttributes]⟩

/-- A row with a date is refused. -/
theorem date_not_written :
    (∀ att ∈ eventAttributes, att.typid ∈ documentedOids) ∧
      RowOf eventAttributes [some (.text "a"), some (.date 8770)] ∧
      ∀ ext : Externals, ¬ RoundTrips ext eventAttributes [[some (.text "a"), some (.date 8770)]] := by
  refine ⟨by decide, ⟨rfl, by simp [eventAttributes, Datum.OfType]⟩, ?_⟩
  rintro ext ⟨schema, batch, hschema, hwrite, -⟩
  obtain rfl := Except.ok.inj hschema
  have hrefused : writeTuples [⟨"name", .utf8, true⟩, ⟨"day", .date32, true⟩] [textOid, dateOid]
      [[some (.text "a"), some (.date 8770)]] =
        .error (.unsupportedType "oid=1082 (write path)" "<n/a>") := by decide
  exact absurd (hrefused.symm.trans hwrite) nofun

end ParquetAzureFdw
