/-
# The builders of a batch

`RecordBatchBuilders` of `src/convert/pg_to_arrow.rs`: one array builder for each field, to which
`append_one` appends the values of a row column by column, and `finish`, which makes a batch of
them.  A builder is the column it has built so far.

Builders hold rows (`RecordBatchBuilders.Holds`): appending the values of one more row adds that
row (`appendCells_eq_ok_iff`), and the batch has the rows that were appended (`finish_rows`).
-/

import ParquetAzureFdw.Modify.PlanSchema

namespace ParquetAzureFdw

/-- A builder without values. -/
def Column.empty (ty : DataType) : Column := ⟨ty, [], nofun⟩

/-- `append_value` and `append_null`. -/
def Column.push (c : Column) (v : Option ArrowValue) (h : cellTyped c.dataType v = true) : Column where
  dataType := c.dataType
  values := c.values ++ [v]
  typed x hx := by
    rcases List.mem_append.mp hx with hx | hx
    · exact c.typed x hx
    · rwa [List.mem_singleton.mp hx]

/-- `RecordBatchBuilders`. -/
structure RecordBatchBuilders where
  schema : List Field
  builders : List Column
  deriving DecidableEq

namespace RecordBatchBuilders

/-- `make_builder`. -/
def makeBuilder (ty : DataType) : FdwResult Column :=
  if ty.hasBuilder then .ok (.empty ty) else .error (.unsupportedType "<n/a>" ty.debug)

/-- `RecordBatchBuilders::new`. -/
def new (schema : List Field) : FdwResult RecordBatchBuilders := do
  let builders ← schema.mapM fun field => makeBuilder field.dataType
  return ⟨schema, builders⟩

/-- `append_one` on the builder of column `col`. -/
def appendOneTo (b : RecordBatchBuilders) (col : ℕ) (oid : Oid) (v : Option Datum) :
    FdwResult RecordBatchBuilders := do
  let cell ← appendOne oid v
  match b.builders[col]? with
  | none => .error (.schemaMismatch ("column index " ++ toString col ++ " out of range (have " ++
      toString b.schema.length ++ ")"))
  | some c =>
    if h : cellTyped c.dataType cell = true then
      .ok { b with builders := b.builders.set col (c.push cell h) }
    else .error (.schemaMismatch
      ("builder for column " ++ toString col ++ " is not of the type of the value"))

/-- The values of a row, appended to the columns from `col` on. -/
def appendCells : ℕ → List (Oid × Option Datum) → RecordBatchBuilders → FdwResult RecordBatchBuilders
  | _, [], b => .ok b
  | col, cell :: cells, b => do
    let b ← b.appendOneTo col cell.1 cell.2
    appendCells (col + 1) cells b

/-- `finish`. -/
def finish (b : RecordBatchBuilders) : FdwResult RecordBatch :=
  match b.builders with
  | [] => RecordBatch.tryNew b.schema []
  | first :: rest =>
    match (rest.zipIdx 1).find? fun c => c.1.values.length != first.values.length with
    | some (c, i) => .error (.schemaMismatch ("column " ++ toString i ++ " has " ++
        toString c.values.length ++ " rows, column 0 has " ++ toString first.values.length ++
        "; every column must be appended for every row"))
    | none => RecordBatch.tryNew b.schema (first :: rest)

end RecordBatchBuilders

/-- What the values of a row are in a batch. -/
def storedRow (cells : List (Oid × Option Datum)) : FdwResult ArrowRow :=
  cells.mapM fun cell => appendOne cell.1 cell.2

/-- Builders after a row: each has one more value. -/
inductive Pushed : List Column → ArrowRow → List Column → Prop
  | nil : Pushed [] [] []
  | cons {c : Column} {cs cs' : List Column} {v : Option ArrowValue} {row : ArrowRow}
      (h : cellTyped c.dataType v = true) (rest : Pushed cs row cs') :
      Pushed (c :: cs) (v :: row) (c.push v h :: cs')

section Builders

variable {schema : List Field} {cells : List (Oid × Option Datum)} {row : ArrowRow}
  {cols cols' : List Column}

theorem appendOneTo_eq_ok_iff {b b' : RecordBatchBuilders} {col : ℕ} {c : Column} {oid : Oid}
    {v : Option Datum} (hc : b.builders[col]? = some c) :
    b.appendOneTo col oid v = .ok b' ↔ ∃ cell, appendOne oid v = .ok cell ∧
      ∃ h, b' = { b with builders := b.builders.set col (c.push cell h) } := by
  simp only [RecordBatchBuilders.appendOneTo, except_bind_eq_ok, hc]
  refine exists_congr fun cell => and_congr_right fun _ => ?_
  split_ifs with htyped
  · simp only [Except.ok.injEq, htyped, exists_true_left]
    exact eq_comm
  · simp [htyped]

/-- **The values of a row are appended** when each can be, and fits its builder. -/
theorem appendCells_eq_ok_iff (done : List Column) {b : RecordBatchBuilders}
    (hlength : cells.length = cols.length) :
    RecordBatchBuilders.appendCells done.length cells ⟨schema, done ++ cols⟩ = .ok b ↔
      ∃ row cols', storedRow cells = .ok row ∧ Pushed cols row cols' ∧ b = ⟨schema, done ++ cols'⟩ := by
  induction cells generalizing done cols with
  | nil =>
    obtain rfl := List.length_eq_zero_iff.mp hlength.symm
    constructor
    · intro h
      obtain rfl := Except.ok.inj h
      exact ⟨[], [], rfl, .nil, rfl⟩
    · rintro ⟨row, cols', -, hpushed, rfl⟩
      cases hpushed
      rfl
  | cons cell cells ih =>
    obtain ⟨c, cs, rfl⟩ := List.exists_cons_of_length_eq_add_one hlength.symm
    have hlength' : cells.length = cs.length := by simpa using hlength
    have hc : (RecordBatchBuilders.mk schema (done ++ c :: cs)).builders[done.length]? = some c := by
      simp
    -- the builders before the next column, once this one has its value
    have hnext : ∀ c' : Column, RecordBatchBuilders.appendCells (done.length + 1) cells
        ⟨schema, (done ++ c :: cs).set done.length c'⟩ = .ok b ↔ ∃ row cols',
          storedRow cells = .ok row ∧ Pushed cs row cols' ∧ b = ⟨schema, done ++ c' :: cols'⟩ := by
      intro c'
      have hset : (done ++ c :: cs).set done.length c' = (done ++ [c']) ++ cs := by simp
      have hdone := ih (done ++ [c']) hlength'
      rw [List.length_append, List.length_singleton] at hdone
      rw [hset, hdone]
      simp only [List.append_assoc, List.singleton_append]
    have hcons : ∀ row, storedRow (cell :: cells) = .ok row ↔ ∃ v, appendOne cell.1 cell.2 = .ok v ∧
        ∃ rest, storedRow cells = .ok rest ∧ row = v :: rest := by
      intro row
      simp only [storedRow, List.mapM_cons, except_bind_eq_ok, pure, Except.pure, Except.ok.injEq]
      simp only [eq_comm]
    simp only [RecordBatchBuilders.appendCells, except_bind_eq_ok, appendOneTo_eq_ok_iff hc, hcons]
    constructor
    · rintro ⟨b₁, ⟨v, hv, htyped, rfl⟩, h⟩
      obtain ⟨row, cols', hrow, hpushed, rfl⟩ := (hnext _).mp h
      exact ⟨v :: row, _, ⟨v, hv, row, hrow, rfl⟩, .cons htyped hpushed, rfl⟩
    · rintro ⟨_, _, ⟨v, hv, row, hrow, rfl⟩, hpushed, rfl⟩
      cases hpushed with
      | cons htyped hpushed =>
        exact ⟨_, ⟨v, hv, htyped, rfl⟩, (hnext _).mpr ⟨row, _, hrow, hpushed, rfl⟩⟩

/-- The builders hold the rows, column by column. -/
structure RecordBatchBuilders.Holds (schema : List Field) (rows : List ArrowRow)
    (b : RecordBatchBuilders) : Prop where
  schema_eq : b.schema = schema
  types : b.builders.map Column.dataType = schema.map Field.dataType
  width : ∀ row ∈ rows, row.length = schema.length
  values : ∀ (k : ℕ) (c : Column), b.builders[k]? = some c → c.values = rows.map (·.getD k none)

theorem Pushed.types_eq (h : Pushed cols row cols') :
    cols'.map Column.dataType = cols.map Column.dataType := by
  induction h with
  | nil => rfl
  | cons htyped rest ih =>
    rw [List.map_cons, List.map_cons, ih]
    rfl

theorem Pushed.length_row (h : Pushed cols row cols') : row.length = cols.length := by
  induction h with
  | nil => rfl
  | cons htyped rest ih => rw [List.length_cons, List.length_cons, ih]

theorem Pushed.values_eq (h : Pushed cols row cols') {k : ℕ} {c' : Column}
    (hk : cols'[k]? = some c') :
    ∃ c, cols[k]? = some c ∧ c'.values = c.values ++ [row.getD k none] := by
  induction h generalizing k with
  | nil => cases hk
  | @cons c cs cs' v row htyped rest ih =>
    cases k with
    | zero =>
      obtain rfl := Option.some.inj hk
      exact ⟨c, rfl, rfl⟩
    | succ k => exact ih hk

/-- Values that fit the builders can be appended. -/
theorem exists_pushed (h : List.Forall₂ (fun c v => cellTyped c.dataType v = true) cols row) :
    ∃ cols', Pushed cols row cols' := by
  induction h with
  | nil => exact ⟨[], .nil⟩
  | cons htyped rest ih =>
    obtain ⟨cols', hpushed⟩ := ih
    exact ⟨_, .cons htyped hpushed⟩

namespace RecordBatchBuilders

variable {b b' : RecordBatchBuilders} {rows : List ArrowRow}

theorem Holds.length_builders (h : b.Holds schema rows) : b.builders.length = schema.length := by
  simpa using congrArg List.length h.types

/-- New builders hold no row. -/
theorem new_holds (h : new schema = .ok b) : b.Holds schema [] := by
  obtain ⟨builders, hbuilders, h⟩ := except_bind_eq_ok.mp h
  obtain rfl := Except.ok.inj h
  obtain rfl : schema.map (fun f => Column.empty f.dataType) = builders := by
    rw [← List.forall₂_eq_eq_eq, List.forall₂_map_left_iff]
    refine (mapM_eq_ok_iff.mp hbuilders).imp fun f c hc => ?_
    unfold makeBuilder at hc
    split_ifs at hc
    exact Except.ok.inj hc
  refine ⟨rfl, by rw [List.map_map]; rfl, nofun, fun k c hc => ?_⟩
  obtain ⟨f, -, rfl⟩ := List.mem_map.mp (List.mem_of_getElem? hc)
  rfl

/-- **A row is added.** -/
theorem Holds.append (h : b.Holds schema rows) (hlength : cells.length = schema.length)
    (happend : appendCells 0 cells b = .ok b') :
    ∃ row, storedRow cells = .ok row ∧ b'.Holds schema (rows ++ [row]) := by
  have hwidth : cells.length = b.builders.length := hlength.trans h.length_builders.symm
  obtain ⟨row, cols', hrow, hpushed, rfl⟩ := (appendCells_eq_ok_iff [] hwidth).mp happend
  refine ⟨row, hrow, h.schema_eq, hpushed.types_eq.trans h.types, fun r hr => ?_, fun k c hc => ?_⟩
  · rcases List.mem_append.mp hr with hr | hr
    · exact h.width r hr
    · rw [List.mem_singleton.mp hr, hpushed.length_row, h.length_builders]
  · obtain ⟨c₀, hc₀, hvalues⟩ := hpushed.values_eq hc
    rw [hvalues, h.values k c₀ hc₀, List.map_append]
    rfl

theorem Holds.length_values (h : b.Holds schema rows) : ∀ c ∈ b.builders, c.values.length = rows.length := by
  intro c hc
  obtain ⟨k, hk⟩ := List.getElem?_of_mem hc
  rw [h.values k c hk, List.length_map]

/-- The builders are of one length, so that `finish` goes on to `RecordBatch::try_new`. -/
theorem Holds.finish_eq (h : b.Holds schema rows) : b.finish = RecordBatch.tryNew schema b.builders := by
  have hlength := h.length_values
  rw [finish, h.schema_eq]
  cases hbuilders : b.builders with
  | nil => rfl
  | cons first rest =>
    rw [hbuilders] at hlength
    have hfind : (rest.zipIdx 1).find? (fun c => c.1.values.length != first.values.length) = none := by
      refine List.find?_eq_none.mpr fun c hc => ?_
      have hmem : c.1 ∈ rest := List.fst_mem_of_mem_zipIdx hc
      simp [hlength c.1 (List.mem_cons_of_mem _ hmem), hlength first List.mem_cons_self]
    simp only [hfind]

theorem columns_ne_nil_of_tryNew {columns : List Column} {batch : RecordBatch}
    (h : RecordBatch.tryNew schema columns = .ok batch) : columns ≠ [] := by
  rintro rfl
  rw [RecordBatch.tryNew] at h
  split_ifs at h

/-- A batch is made of the builders when there is a column and no NULL where the field allows none. -/
theorem Holds.exists_finish_iff (h : b.Holds schema rows) :
    (∃ batch, b.finish = .ok batch) ↔ schema ≠ [] ∧
      ∀ fc ∈ schema.zip b.builders, fc.1.nullable = false → none ∉ fc.2.values := by
  have hempty : b.builders = [] ↔ schema = [] := by
    rw [← List.length_eq_zero_iff, h.length_builders, List.length_eq_zero_iff]
  rw [h.finish_eq]
  constructor
  · rintro ⟨batch, hbatch⟩
    have hne := columns_ne_nil_of_tryNew hbatch
    exact ⟨fun hnil => hne (hempty.mpr hnil),
      ((RecordBatch.tryNew_eq_ok_iff hne h.types.symm h.length_values).mp hbatch).2.2⟩
  · rintro ⟨hne, hnulls⟩
    have hne' : b.builders ≠ [] := fun hnil => hne (hempty.mp hnil)
    exact ⟨⟨rows.length, b.builders, h.length_values⟩,
      (RecordBatch.tryNew_eq_ok_iff hne' h.types.symm h.length_values).mpr ⟨rfl, rfl, hnulls⟩⟩

/-- **The batch has the rows that were appended.** -/
theorem Holds.finish_rows (h : b.Holds schema rows) {batch : RecordBatch}
    (hfinish : b.finish = .ok batch) :
    batch.rows = rows ∧ batch.columns = b.builders := by
  rw [h.finish_eq] at hfinish
  obtain ⟨hrows, hcolumns, -⟩ := (RecordBatch.tryNew_eq_ok_iff (columns_ne_nil_of_tryNew hfinish)
    h.types.symm h.length_values).mp hfinish
  refine ⟨List.ext_getElem? fun i => ?_, hcolumns⟩
  rw [RecordBatch.rows, List.getElem?_map, hrows]
  rcases Nat.lt_or_ge i rows.length with hi | hi
  · rw [List.getElem?_range hi, List.getElem?_eq_getElem hi, Option.map_some, RecordBatch.row, hcolumns]
    congr 1
    refine List.ext_getElem ?_ fun k hk hk' => ?_
    · rw [List.length_map, h.length_builders, h.width _ (List.getElem_mem hi)]
    · rw [List.length_map] at hk
      have hvalues := h.values k _ (List.getElem?_eq_getElem hk)
      simp [Column.cell, hvalues, List.getD_eq_getElem?_getD, hi, hk']
  · rw [List.getElem?_eq_none (by simpa using hi), List.getElem?_eq_none hi]
    rfl

end RecordBatchBuilders

end Builders

end ParquetAzureFdw
