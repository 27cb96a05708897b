/-
# The rewrite of a blob, row by row

`apply_edits` of `src/fdw/modify/kernel.rs` runs the kernel over the batches of a blob, with a
running offset.  Whatever the batches, the rows of its output are those of the blob with the
overrides put in and the deleted rows taken out (`BlobEdits.applyRows`); and it has an output
unless an override is of another type than its column, or is a NULL that the schema does not
allow (`applyEdits_rowwise`).
-/

import ParquetAzureFdw.Modify.Kernel

namespace ParquetAzureFdw

section Kernel

variable (edits : BlobEdits) (schema : List Field)

/-- The loop of `apply_edits`, from an offset on. -/
def applyEditsFrom : ℕ → List RecordBatch → Outcome (List RecordBatch)
  | _, [] => .ok []
  | offset, batch :: input => do
    let out ← applyEditsBatch edits offset schema batch
    let rest ← applyEditsFrom (offset + batch.numRows) input
    return out :: rest

/-- `apply_edits`. -/
def applyEdits (input : List RecordBatch) : Outcome (List RecordBatch) :=
  applyEditsFrom edits schema 0 input

end Kernel

/-! ### The specification -/

/-- The rows of all batches, in order. -/
def batchRows (input : List RecordBatch) : List ArrowRow := input.flatMap RecordBatch.rows

/-- A row with its overrides. -/
def BlobEdits.overrideRow (edits : BlobEdits) (abs : ℕ) (row : ArrowRow) : ArrowRow :=
  row.mapIdx fun col old => edits.newCell abs col old

/-- The rows with their overrides, and then without the deleted ones; the first is row `offset`. -/
def BlobEdits.applyRows (edits : BlobEdits) (offset : ℕ) (rows : List ArrowRow) : List ArrowRow :=
  let updated := (rows.zipIdx offset).map fun x => (edits.overrideRow x.2 x.1, x.2)
  (updated.filter fun x => !edits.isDeleted x.2).map Prod.fst

/-- A batch of the schema: its columns have the types of the fields, and no NULL where the field
allows none. -/
structure RecordBatch.Matches (b : RecordBatch) (schema : List Field) : Prop where
  types : schema.map Field.dataType = b.columns.map Column.dataType
  notNull : ∀ (i : ℕ) f c, schema[i]? = some f → b.columns[i]? = some c → f.nullable = false →
    ∀ row < b.numRows, c.cell row ≠ none

/-- The overrides of `n` rows from `offset` on are of the types of the schema, and none is a NULL
where the field allows none. -/
def BlobEdits.Allowed (edits : BlobEdits) (schema : List Field) (offset n : ℕ) : Prop :=
  ∀ (abs i : ℕ) field replacement, offset ≤ abs → abs < offset + n → schema[i]? = some field →
    edits.overrideAt abs i = some replacement →
      replacement.dataType = field.dataType ∧ (field.nullable = false → replacement.cell 0 ≠ none)

/-- Every override array has one row. -/
def BlobEdits.SingleRow (edits : BlobEdits) : Prop :=
  ∀ u ∈ edits.updates, ∀ array, some array ∈ u.2.values → array.values.length = 1

section Spec

variable {edits : BlobEdits} {schema : List Field}

theorem BlobEdits.applyRows_append (offset : ℕ) (rows rows' : List ArrowRow) :
    edits.applyRows offset (rows ++ rows') =
      edits.applyRows offset rows ++ edits.applyRows (offset + rows.length) rows' := by
  simp [BlobEdits.applyRows, List.zipIdx_append]

theorem RecordBatch.length_rows (b : RecordBatch) : b.rows.length = b.numRows := by
  simp [RecordBatch.rows]

/-- The specification of one batch. -/
theorem BlobEdits.applyRows_rows (edits : BlobEdits) (offset : ℕ) (batch : RecordBatch) :
    edits.applyRows offset batch.rows = ((List.range batch.numRows).filter fun row =>
      !edits.isDeleted (offset + row)).map fun row =>
        (batch.row row).mapIdx fun colIdx old => edits.newCell (offset + row) colIdx old := by
  have hzip : batch.rows.zipIdx offset =
      (List.range batch.numRows).map fun row => (batch.row row, offset + row) := by
    refine List.ext_getElem (by simp [RecordBatch.length_rows]) fun i h₁ h₂ => ?_
    simp [RecordBatch.rows]
  rw [BlobEdits.applyRows, hzip, List.map_map, List.filter_map, List.map_map]
  rfl

theorem BlobEdits.SingleRow.length_eq (h : edits.SingleRow) {abs col : ℕ} {replacement : Column}
    (ho : edits.overrideAt abs col = some replacement) : replacement.values.length = 1 := by
  obtain ⟨o, hlookup, hvalue⟩ := Option.bind_eq_some_iff.mp ho
  obtain ⟨before, after, hupdates, -⟩ := List.lookup_eq_some_iff.mp hlookup
  refine h (abs, o) (by simp [hupdates]) replacement ?_
  rw [List.getD_eq_getElem?_getD] at hvalue
  cases hget : o.values[col]? with
  | none => simp [hget] at hvalue
  | some value =>
    rw [hget, Option.getD_some] at hvalue
    exact hvalue ▸ List.mem_of_getElem? hget

/-! ### Overrides of another type -/

theorem Column.concat_dataType {pieces : List Column} {c : Column}
    (h : Column.concat pieces = .ok c) : ∀ piece ∈ pieces, piece.dataType = c.dataType := by
  cases pieces with
  | nil => cases h
  | cons first rest =>
    simp only [Column.concat] at h
    split_ifs at h with hsame
    obtain rfl := Except.ok.inj h
    intro piece hpiece
    rcases List.mem_cons.mp hpiece with rfl | hpiece
    · rfl
    · exact hsame piece hpiece

/-- Every override of a spliced row is one of the pieces. -/
theorem mem_splicePieces {baseOffset colIdx cursor abs : ℕ} {col replacement : Column}
    {hits : List ℕ} {pieces : List Column}
    (h : splicePieces edits baseOffset colIdx col cursor hits = .ok pieces) (habs : abs ∈ hits)
    (ho : edits.overrideAt abs colIdx = some replacement) : replacement ∈ pieces := by
  induction hits generalizing cursor pieces with
  | nil => cases habs
  | cons first hits ih =>
    obtain ⟨piece, hpiece, h⟩ := except_bind_eq_ok.mp h
    obtain ⟨rest, hrest, h⟩ := except_bind_eq_ok.mp h
    obtain rfl := Except.ok.inj h
    refine List.mem_append_right _ ?_
    rcases List.mem_cons.mp habs with rfl | habs
    · rw [splicePiece, ho] at hpiece
      simp only at hpiece
      split_ifs at hpiece
      obtain rfl := Except.ok.inj hpiece
      exact List.mem_cons_self
    · exact List.mem_cons_of_mem _ (ih hrest habs)

theorem spliceColumn_dataType {baseOffset colIdx abs : ℕ} {col new replacement : Column}
    {hits : List ℕ} (h : spliceColumn edits baseOffset hits colIdx col = .ok new) (habs : abs ∈ hits)
    (ho : edits.overrideAt abs colIdx = some replacement) : replacement.dataType = new.dataType := by
  have hany : (hits.any fun abs => (edits.overrideAt abs colIdx).isSome) = true :=
    List.any_eq_true.mpr ⟨abs, habs, by rw [ho]; rfl⟩
  rw [spliceColumn, if_pos hany] at h
  obtain ⟨pieces, hpieces, hconcat⟩ := except_bind_eq_ok.mp h
  exact Column.concat_dataType hconcat replacement (mem_splicePieces hpieces habs ho)

theorem RecordBatch.tryNew_dataType {columns : List Column} {b : RecordBatch}
    (h : RecordBatch.tryNew schema columns = .ok b) {i : ℕ} {field : Field} {c : Column}
    (hfield : schema[i]? = some field) (hc : columns[i]? = some c) :
    c.dataType = field.dataType := by
  have htypes := congrArg (·[i]?) (RecordBatch.tryNew_types h).2
  simpa [hfield, hc, eq_comm] using htypes

section Batch

variable {offset : ℕ} {batch : RecordBatch}

/-- A batch that the kernel accepts has no override of another type. -/
theorem override_dataType_of_ok (hdistinct : (edits.updates.map Prod.fst).Nodup) {out : RecordBatch}
    (h : applyEditsBatch edits offset schema batch = .ok out) {abs i : ℕ} {field : Field}
    {c replacement : Column} (hlo : offset ≤ abs) (hhi : abs < offset + batch.numRows)
    (hfield : schema[i]? = some field) (hc : batch.columns[i]? = some c)
    (ho : edits.overrideAt abs i = some replacement) : replacement.dataType = field.dataType := by
  obtain ⟨columns, hcolumns, h⟩ := except_bind_eq_ok.mp h
  obtain ⟨updated, hupdated, -⟩ := except_bind_eq_ok.mp h
  rw [FdwResult.lift_eq_ok] at hcolumns hupdated
  have hzip : batch.columns.zipIdx[i]? = some (c, i) := by
    rw [List.getElem?_zipIdx, hc]
    simp
  obtain ⟨new, hnew, hsplice⟩ := forall₂_getElem? (mapM_eq_ok_iff.mp hcolumns) hzip
  have habs : abs ∈ edits.hits offset batch.numRows := by
    refine ((BlobEdits.hits_spec hdistinct offset batch.numRows).2 abs).mpr ⟨⟨hlo, hhi⟩, ?_⟩
    by_contra hnot
    rw [BlobEdits.overrideAt_of_notMem hnot] at ho
    cases ho
  rw [spliceColumn_dataType hsplice habs ho, RecordBatch.tryNew_dataType hupdated hfield hnew]

theorem RecordBatch.Matches.length_eq (h : batch.Matches schema) :
    schema.length = batch.columns.length := by
  simpa using congrArg List.length h.types

theorem RecordBatch.Matches.dataType_eq (h : batch.Matches schema) {i : ℕ} {f : Field} {c : Column}
    (hf : schema[i]? = some f) (hc : batch.columns[i]? = some c) : f.dataType = c.dataType := by
  have htypes := congrArg (·[i]?) h.types
  simpa only [List.getElem?_map, hf, hc, Option.map_some, Option.some.injEq] using htypes

/-- In a batch of the schema only an override can put a NULL where none is allowed. -/
theorem RecordBatch.Matches.newCell_ne_none_iff (h : batch.Matches schema) :
    (∀ (i : ℕ) f c, schema[i]? = some f → batch.columns[i]? = some c → f.nullable = false →
        ∀ row < batch.numRows, edits.newCell (offset + row) i (c.cell row) ≠ none) ↔
      ∀ (abs i : ℕ) f replacement, offset ≤ abs → abs < offset + batch.numRows →
        schema[i]? = some f → edits.overrideAt abs i = some replacement →
          f.nullable = false → replacement.cell 0 ≠ none := by
  constructor
  · intro hcells abs i f replacement hlo hhi hf ho hfield
    have hlt : i < batch.columns.length := h.length_eq ▸ (List.getElem?_eq_some_iff.mp hf).1
    have hcell := hcells i f _ hf (List.getElem?_eq_getElem hlt) hfield (abs - offset) (by omega)
    rwa [show offset + (abs - offset) = abs by omega, BlobEdits.newCell, ho] at hcell
  · intro hoverrides i f c hf hc hfield row hrow
    rw [BlobEdits.newCell]
    cases ho : edits.overrideAt (offset + row) i with
    | some replacement =>
      exact hoverrides (offset + row) i f replacement (by omega) (by omega) hf ho hfield
    | none => exact h.notNull i f c hf hc hfield row hrow

variable (hdistinct : (edits.updates.map Prod.fst).Nodup) (hsingle : edits.SingleRow)
  (hne : schema ≠ []) (hmatches : batch.Matches schema) (hrows : offset + batch.numRows < 2 ^ 32)

include hdistinct hsingle hne hmatches hrows

/-- With overrides of the right types, only NULLs are refused. -/
theorem applyEditsBatch_of_types
    (htypes : ∀ (abs i : ℕ) f replacement, offset ≤ abs → abs < offset + batch.numRows →
      schema[i]? = some f → edits.overrideAt abs i = some replacement →
        replacement.dataType = f.dataType) :
    ((∃ out, applyEditsBatch edits offset schema batch = .ok out) ↔
        ∀ (abs i : ℕ) f replacement, offset ≤ abs → abs < offset + batch.numRows →
          schema[i]? = some f → edits.overrideAt abs i = some replacement →
            f.nullable = false → replacement.cell 0 ≠ none) ∧
      ∀ out, applyEditsBatch edits offset schema batch = .ok out →
        out.rows = edits.applyRows offset batch.rows := by
  have hnonempty : batch.columns ≠ [] := by
    rw [← List.length_pos_iff, ← hmatches.length_eq]
    exact List.length_pos_iff.mpr hne
  have hfits : ∀ (i : ℕ) c, batch.columns[i]? = some c →
      edits.FitsWithin i c.dataType offset batch.numRows := by
    intro i c hc abs replacement hlo hhi ho
    have hlt : i < schema.length := hmatches.length_eq ▸ (List.getElem?_eq_some_iff.mp hc).1
    have hf := List.getElem?_eq_getElem hlt
    refine ⟨hsingle.length_eq ho, ?_⟩
    rw [htypes abs i _ replacement hlo hhi hf ho, hmatches.dataType_eq hf hc]
  obtain ⟨hiff, hedited⟩ := applyEditsBatch_spec hdistinct hnonempty hrows hmatches.types hfits
  exact ⟨hiff.trans hmatches.newCell_ne_none_iff, fun out hout =>
    (hedited out hout).rows.trans (edits.applyRows_rows offset batch).symm⟩

/-- **One batch:** the kernel accepts it exactly when its overrides are allowed. -/
theorem applyEditsBatch_allowed :
    ((∃ out, applyEditsBatch edits offset schema batch = .ok out) ↔
        edits.Allowed schema offset batch.numRows) ∧
      ∀ out, applyEditsBatch edits offset schema batch = .ok out →
        out.rows = edits.applyRows offset batch.rows := by
  have hspec := applyEditsBatch_of_types hdistinct hsingle hne hmatches hrows
  have htypes : ∀ out, applyEditsBatch edits offset schema batch = .ok out →
      ∀ (abs i : ℕ) f replacement, offset ≤ abs → abs < offset + batch.numRows →
        schema[i]? = some f → edits.overrideAt abs i = some replacement →
          replacement.dataType = f.dataType := by
    intro out hout abs i f replacement hlo hhi hf ho
    have hlt : i < batch.columns.length := hmatches.length_eq ▸ (List.getElem?_eq_some_iff.mp hf).1
    exact override_dataType_of_ok hdistinct hout hlo hhi hf (List.getElem?_eq_getElem hlt) ho
  refine ⟨⟨?_, fun hallowed => ?_⟩, fun out hout => (hspec (htypes out hout)).2 out hout⟩
  · rintro ⟨out, hout⟩ abs i f replacement hlo hhi hf ho
    exact ⟨htypes out hout abs i f replacement hlo hhi hf ho,
      (hspec (htypes out hout)).1.mp ⟨out, hout⟩ abs i f replacement hlo hhi hf ho⟩
  · refine (hspec fun abs i f replacement hlo hhi hf ho =>
      (hallowed abs i f replacement hlo hhi hf ho).1).1.mpr ?_
    exact fun abs i f replacement hlo hhi hf ho => (hallowed abs i f replacement hlo hhi hf ho).2

end Batch

/-! ### All batches -/

/-- The rows of all batches. -/
def totalRows (input : List RecordBatch) : ℕ := (input.map RecordBatch.numRows).sum

theorem length_batchRows (input : List RecordBatch) : (batchRows input).length = totalRows input := by
  simp [batchRows, totalRows, List.length_flatMap, RecordBatch.length_rows]

theorem BlobEdits.allowed_add {offset m n : ℕ} :
    edits.Allowed schema offset (m + n) ↔
      edits.Allowed schema offset m ∧ edits.Allowed schema (offset + m) n := by
  constructor
  · exact fun h => ⟨fun abs i f r hlo hhi => h abs i f r (by omega) (by omega),
      fun abs i f r hlo hhi => h abs i f r (by omega) (by omega)⟩
  · rintro ⟨h₁, h₂⟩ abs i f r hlo hhi
    rcases Nat.lt_or_ge abs (offset + m) with hlt | hge
    · exact h₁ abs i f r hlo hlt
    · exact h₂ abs i f r hge (by omega)

section Input

variable (hdistinct : (edits.updates.map Prod.fst).Nodup) (hsingle : edits.SingleRow)

include hdistinct hsingle

/-- The batches from an offset on. -/
theorem applyEditsFrom_allowed (hne : schema ≠ []) {input : List RecordBatch}
    (hmatches : ∀ b ∈ input, b.Matches schema) {offset : ℕ}
    (hrows : offset + totalRows input < 2 ^ 32) :
    ((∃ out, applyEditsFrom edits schema offset input = .ok out) ↔
        edits.Allowed schema offset (totalRows input)) ∧
      ∀ out, applyEditsFrom edits schema offset input = .ok out →
        batchRows out = edits.applyRows offset (batchRows input) := by
  induction input generalizing offset with
  | nil =>
    refine ⟨⟨fun _ abs i f r hlo hhi => ?_, fun _ => ⟨[], rfl⟩⟩, fun out hout => ?_⟩
    · have hzero : totalRows [] = 0 := rfl
      omega
    · obtain rfl := Except.ok.inj hout
      rfl
  | cons batch input ih =>
    have htotal : totalRows (batch :: input) = batch.numRows + totalRows input := by
      simp [totalRows]
    rw [htotal] at hrows ⊢
    obtain ⟨hiff, hspec⟩ := applyEditsBatch_allowed hdistinct hsingle hne
      (hmatches batch List.mem_cons_self) (show offset + batch.numRows < 2 ^ 32 by omega)
    obtain ⟨hiff', hspec'⟩ := ih (fun b hb => hmatches b (List.mem_cons_of_mem _ hb))
      (show offset + batch.numRows + totalRows input < 2 ^ 32 by omega)
    rw [BlobEdits.allowed_add, ← hiff, ← hiff']
    refine ⟨⟨?_, ?_⟩, fun out hout => ?_⟩
    · rintro ⟨out, hout⟩
      obtain ⟨first, hfirst, hout⟩ := except_bind_eq_ok.mp hout
      obtain ⟨rest, hrest, -⟩ := except_bind_eq_ok.mp hout
      exact ⟨⟨first, hfirst⟩, rest, hrest⟩
    · rintro ⟨⟨first, hfirst⟩, rest, hrest⟩
      exact ⟨_, except_bind_eq_ok.mpr ⟨first, hfirst, except_bind_eq_ok.mpr ⟨rest, hrest, rfl⟩⟩⟩
    · obtain ⟨first, hfirst, hout⟩ := except_bind_eq_ok.mp hout
      obtain ⟨rest, hrest, hout⟩ := except_bind_eq_ok.mp hout
      obtain rfl := Except.ok.inj hout
      have hcons : ∀ b bs, batchRows (b :: bs) = b.rows ++ batchRows bs := fun _ _ =>
        List.flatMap_cons
      rw [hcons, hcons, BlobEdits.applyRows_append, RecordBatch.length_rows, hspec first hfirst,
        hspec' rest hrest]

end Input

end Spec

/-- What `apply_edits` returns, against the rows of its input. -/
structure RewrittenRows (edits : BlobEdits) (schema : List Field) (input : List RecordBatch) :
    Prop where
  /-- It returns unless an override is of the wrong type, or a NULL that is not allowed. -/
  returns_iff : (∃ out, applyEdits edits schema input = .ok out) ↔
    (input = [] ∨ schema ≠ []) ∧ edits.Allowed schema 0 (totalRows input)
  /-- The rows of its output are those of the specification. -/
  rows : ∀ out, applyEdits edits schema input = .ok out →
    batchRows out = edits.applyRows 0 (batchRows input)
  /-- The cut into batches does not matter. -/
  recut : ∀ input' out out', (∀ b ∈ input', b.Matches schema) → batchRows input' = batchRows input →
    applyEdits edits schema input = .ok out → applyEdits edits schema input' = .ok out' →
      batchRows out' = batchRows out
  /-- Edits at or past the end do not matter. -/
  pastEnd : ∀ (edits' : BlobEdits) out out', (edits'.updates.map Prod.fst).Nodup →
    edits'.SingleRow →
    (∀ abs < totalRows input, edits'.isDeleted abs = edits.isDeleted abs ∧
      ∀ col, edits'.overrideAt abs col = edits.overrideAt abs col) →
    applyEdits edits schema input = .ok out → applyEdits edits' schema input = .ok out' →
      batchRows out' = batchRows out

section Theorem

variable {edits : BlobEdits} {schema : List Field}

/-- A schema without columns: the first batch is refused. -/
theorem applyEdits_of_nil {input out : List RecordBatch} (hmatches : ∀ b ∈ input, b.Matches [])
    (h : applyEdits edits [] input = .ok out) : input = [] := by
  cases input with
  | nil => rfl
  | cons batch input =>
    obtain ⟨first, hfirst, -⟩ := except_bind_eq_ok.mp h
    have hcount := (hmatches batch List.mem_cons_self).length_eq
    exact absurd (List.length_eq_zero_iff.mp hcount.symm) (columns_ne_nil_of_applyEditsBatch hfirst)

theorem applyEdits_allowed (hdistinct : (edits.updates.map Prod.fst).Nodup)
    (hsingle : edits.SingleRow) {input : List RecordBatch}
    (hmatches : ∀ b ∈ input, b.Matches schema) (hrows : totalRows input < 2 ^ 32) :
    ((∃ out, applyEdits edits schema input = .ok out) ↔
        (input = [] ∨ schema ≠ []) ∧ edits.Allowed schema 0 (totalRows input)) ∧
      ∀ out, applyEdits edits schema input = .ok out →
        batchRows out = edits.applyRows 0 (batchRows input) := by
  by_cases hne : schema = []
  · subst hne
    have hnil : ∀ out, applyEdits edits [] input = .ok out → input = [] := fun out =>
      applyEdits_of_nil hmatches
    refine ⟨⟨fun ⟨out, hout⟩ => ⟨.inl (hnil out hout), ?_⟩, fun h => ?_⟩, fun out hout => ?_⟩
    · intro abs i f replacement _ _ hf
      cases hf
    · obtain rfl := h.1.resolve_right (absurd rfl)
      exact ⟨[], rfl⟩
    · obtain rfl := hnil out hout
      obtain rfl := Except.ok.inj hout
      rfl
  · obtain ⟨hiff, hspec⟩ := applyEditsFrom_allowed hdistinct hsingle hne hmatches
      (show 0 + totalRows input < 2 ^ 32 by omega)
    exact ⟨hiff.trans (and_iff_right (.inr hne)).symm, hspec⟩

/-- Edits that agree on the rows there are. -/
theorem BlobEdits.applyRows_congr {edits' : BlobEdits} {rows : List ArrowRow}
    (h : ∀ abs < rows.length, edits'.isDeleted abs = edits.isDeleted abs ∧
      ∀ col, edits'.overrideAt abs col = edits.overrideAt abs col) :
    edits'.applyRows 0 rows = edits.applyRows 0 rows := by
  have hindex : ∀ x ∈ rows.zipIdx, x.2 < rows.length := fun x hx => List.snd_lt_of_mem_zipIdx hx
  have hupdated : rows.zipIdx.map (fun x => (edits'.overrideRow x.2 x.1, x.2)) =
      rows.zipIdx.map fun x => (edits.overrideRow x.2 x.1, x.2) := by
    refine List.map_congr_left fun x hx => ?_
    simp only [BlobEdits.overrideRow, BlobEdits.newCell, (h x.2 (hindex x hx)).2]
  rw [BlobEdits.applyRows, BlobEdits.applyRows, hupdated]
  refine congrArg _ (List.filter_congr fun y hy => ?_)
  obtain ⟨x, hx, rfl⟩ := List.mem_map.mp hy
  rw [(h x.2 (hindex x hx)).1]

/-- **`apply_edits` is the rewrite row by row.** -/
theorem applyEdits_rowwise (hdistinct : (edits.updates.map Prod.fst).Nodup)
    (hsingle : edits.SingleRow) {input : List RecordBatch}
    (hmatches : ∀ b ∈ input, b.Matches schema) (hrows : totalRows input ≤ 2 ^ 32 - 1) :
    RewrittenRows edits schema input := by
  have hlt : totalRows input < 2 ^ 32 := by omega
  obtain ⟨hiff, hspec⟩ := applyEdits_allowed hdistinct hsingle hmatches hlt
  refine ⟨hiff, hspec, fun input' out out' hmatches' hcut hout hout' => ?_,
    fun edits' out out' hdistinct' hsingle' hagree hout hout' => ?_⟩
  · have hlt' : totalRows input' < 2 ^ 32 := by rwa [← length_batchRows, hcut, length_batchRows]
    obtain ⟨-, hspec'⟩ := applyEdits_allowed hdistinct hsingle hmatches' hlt'
    rw [hspec' out' hout', hspec out hout, hcut]
  · obtain ⟨-, hspec'⟩ := applyEdits_allowed hdistinct' hsingle' hmatches hlt
    rw [hspec' out' hout', hspec out hout]
    refine BlobEdits.applyRows_congr ?_
    rwa [length_batchRows]

end Theorem

/-- A column of integers. -/
def idColumn (values : List Int32) : Column :=
  ⟨.int32, values.map fun v => some (.int32 v), by simp [cellTyped, ArrowValue.hasType]⟩

/-- A batch of integers. -/
def idBatch (values : List Int32) : RecordBatch :=
  ⟨values.length, [idColumn values], by simp [idColumn]⟩

/-- Row 1 and row 2 are updated, row 2 is deleted, and so is a row past the end. -/
def straddlingEdits : BlobEdits where
  deletes := [2, 9]
  updates := [(1, ⟨[some (idColumn [8])]⟩), (2, ⟨[some (idColumn [9])]⟩)]

/-- The edits lie on both sides of the boundary between two batches. -/
theorem straddling_edits_rowwise :
    RewrittenRows straddlingEdits [⟨"id", .int32, true⟩] [idBatch [1, 2], idBatch [], idBatch [3, 4]] ∧
      straddlingEdits.applyRows 0 (batchRows [idBatch [1, 2], idBatch [], idBatch [3, 4]]) =
        batchRows [idBatch [1, 8, 4]] := by
  have hmatches : ∀ values, (idBatch values).Matches [⟨"id", .int32, true⟩] := fun values =>
    ⟨rfl, fun i f c hf _ hfield => by
      obtain rfl : i = 0 := by simpa using (List.getElem?_eq_some_iff.mp hf).1
      obtain rfl := Option.some.inj hf
      cases hfield⟩
  refine ⟨applyEdits_rowwise (by decide) ?_ (by simp [hmatches]) (by decide),
    by decide⟩
  simp [BlobEdits.SingleRow, straddlingEdits, idColumn]

end ParquetAzureFdw
