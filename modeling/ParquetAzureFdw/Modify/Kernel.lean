/-
# The rewrite kernel

`apply_edits_batch` of `src/fdw/modify/kernel.rs`: the column overrides and the
deletes of one batch of a blob.  Edits are keyed by the absolute row in the blob; a
batch is given with the absolute row of its first row, and takes the edits in its
range.  Overridden columns are spliced from slices of the old array and the
one-row arrays of the overrides.

On columns of the schema's types the kernel fails only for a NULL that the schema does
not allow, and leaves the rows that are not deleted, with the overridden slots replaced
and the others kept (`applyEditsBatch_spec`).
-/

import ParquetAzureFdw.Modify.Insert

namespace ParquetAzureFdw

/-- `RowOverride`: a one-row array for each column that is set. -/
structure RowOverride where
  values : List (Option Column)
  deriving DecidableEq

/-- `BlobEdits`.  The bitmap is the list of its members, the map a list of pairs with
distinct keys. -/
structure BlobEdits where
  deletes : List UInt32
  updates : List (ℕ × RowOverride)
  deriving DecidableEq

/-- The array that an override sets in column `col` of the absolute row `abs`. -/
def BlobEdits.overrideAt (edits : BlobEdits) (abs col : ℕ) : Option Column := do
  let o ← edits.updates.lookup abs
  o.values.getD col none

/-! ### Arrays and batches -/

/-- `Array::slice`. -/
def Column.slice (c : Column) (start len : ℕ) : Column where
  dataType := c.dataType
  values := (c.values.drop start).take len
  typed v hv := c.typed v (List.mem_of_mem_drop (List.mem_of_mem_take hv))

/-- `arrow::compute::concat`. -/
def Column.concat : List Column → FdwResult Column
  | [] => .error (.arrow "concat requires input of at least one array")
  | c :: cs =>
    if h : ∀ c' ∈ cs, c'.dataType = c.dataType then
      .ok {
        dataType := c.dataType
        values := c.values ++ cs.flatMap Column.values
        typed := by
          intro v hv
          rcases List.mem_append.mp hv with hv | hv
          · exact c.typed v hv
          · obtain ⟨c', hc', hv⟩ := List.mem_flatMap.mp hv
            exact h c' hc' ▸ c'.typed v hv }
    else .error (.arrow "It is not possible to concatenate arrays of different data types")

/-- `RecordBatch::try_new`. -/
def RecordBatch.tryNew (schema : List Field) (columns : List Column) : FdwResult RecordBatch :=
  if schema.length ≠ columns.length then
    .error (.arrow ("number of columns(" ++ toString columns.length ++
      ") must match number of fields(" ++ toString schema.length ++ ") in schema"))
  else
    match columns with
    | [] => .error (.arrow "must either specify a row count or at least one column")
    | c :: cs =>
      if ∃ fc ∈ schema.zip (c :: cs), !fc.1.nullable && fc.2.values.contains none then
        .error (.arrow "Column is declared as non-nullable but contains null values")
      else if h : ∀ c' ∈ c :: cs, c'.values.length = c.values.length then
        if ∃ fc ∈ schema.zip (c :: cs), fc.1.dataType ≠ fc.2.dataType then
          .error (.arrow "column types must match schema types")
        else .ok ⟨c.values.length, c :: cs, h⟩
      else .error (.arrow "all columns in a record batch must have the same length")

/-- The values whose index passes a test. -/
def filterIdx {α : Type} (keep : ℕ → Bool) (l : List α) : List α :=
  (l.zipIdx.filter fun x => keep x.2).map Prod.fst

theorem length_filterIdx {α : Type} (keep : ℕ → Bool) (l : List α) :
    (filterIdx keep l).length = ((List.range l.length).filter keep).length := by
  have hrange : List.range l.length = l.zipIdx.map Prod.snd := by
    rw [List.zipIdx_map_snd, List.range_eq_range']
  rw [filterIdx, List.length_map, hrange, List.filter_map, List.length_map]
  rfl

/-- `filter_record_batch`. -/
def RecordBatch.filterRows (b : RecordBatch) (keep : ℕ → Bool) : RecordBatch where
  numRows := ((List.range b.numRows).filter keep).length
  columns := b.columns.map fun c => {
    dataType := c.dataType
    values := filterIdx keep c.values
    typed := by
      intro v hv
      obtain ⟨x, hx, rfl⟩ := List.mem_map.mp hv
      exact c.typed x.1 (List.fst_mem_of_mem_zipIdx (List.mem_of_mem_filter hx)) }
  length_eq := by
    intro c hc
    obtain ⟨c', hc', rfl⟩ := List.mem_map.mp hc
    rw [length_filterIdx, b.length_eq c' hc']

/-! ### The kernel -/

section Kernel

variable (edits : BlobEdits) (baseOffset : ℕ)

/-- The rows of the batch that have an override, in order. -/
def BlobEdits.hits (n : ℕ) : List ℕ :=
  ((edits.updates.map Prod.fst).filter fun k => baseOffset ≤ k ∧ k < baseOffset + n).insertionSort (· ≤ ·)

/-- The piece of an overridden column for the row `abs`: its override, if it has one. -/
def splicePiece (colIdx : ℕ) (col : Column) (abs : ℕ) : FdwResult Column :=
  match edits.overrideAt abs colIdx with
  | some replacement =>
    if replacement.values.length ≠ 1 then
      .error (.schemaMismatch ("override array for col " ++ toString colIdx ++ " abs row " ++
        toString abs ++ " has len=" ++ toString replacement.values.length ++ ", expected 1"))
    else .ok replacement
  | none => .ok (col.slice (abs - baseOffset) 1)

/-- The pieces of an overridden column, from the row `cursor` on. -/
def splicePieces (colIdx : ℕ) (col : Column) : ℕ → List ℕ → FdwResult (List Column)
  | cursor, [] =>
    .ok (if cursor < col.values.length then [col.slice cursor (col.values.length - cursor)] else [])
  | cursor, abs :: hits => do
    let row := abs - baseOffset
    let before := if cursor < row then [col.slice cursor (row - cursor)] else []
    let piece ← splicePiece edits baseOffset colIdx col abs
    let after ← splicePieces colIdx col (row + 1) hits
    return before ++ piece :: after

/-- One column of the batch after the overrides. -/
def spliceColumn (hits : List ℕ) (colIdx : ℕ) (col : Column) : FdwResult Column :=
  if hits.any fun abs => (edits.overrideAt abs colIdx).isSome then do
    let pieces ← splicePieces edits baseOffset colIdx col 0 hits
    Column.concat pieces
  else .ok col

/-- The deletes of the batch, as the mask sees them: the range is narrowed to `u32`. -/
def BlobEdits.deletesInRange (n : ℕ) : List ℕ :=
  (edits.deletes.map UInt32.toNat).filter fun abs =>
    baseOffset % 2 ^ 32 ≤ abs ∧ abs < min (baseOffset + n) (2 ^ 32 - 1)

/-- The mask of the batch, applied to the updated rows. -/
def applyDeletes (updated : RecordBatch) (n : ℕ) : Outcome RecordBatch :=
  let deletes := edits.deletesInRange baseOffset n
  if deletes.isEmpty then .ok updated
  else if deletes.any (· < baseOffset) then .error (.panic "attempt to subtract with overflow")
  else .ok (updated.filterRows fun row => !deletes.contains (baseOffset + row))

/-- `apply_edits_batch`. -/
def applyEditsBatch (schema : List Field) (batch : RecordBatch) : Outcome RecordBatch := do
  let hits := edits.hits baseOffset batch.numRows
  let columns ← FdwResult.lift (batch.columns.zipIdx.mapM fun (col, colIdx) =>
    spliceColumn edits baseOffset hits colIdx col)
  let updated ← FdwResult.lift (RecordBatch.tryNew schema columns)
  applyDeletes edits baseOffset updated batch.numRows

end Kernel

/-! ### What the kernel computes -/

/-- The rows of a batch. -/
def RecordBatch.rows (b : RecordBatch) : List ArrowRow := (List.range b.numRows).map b.row

theorem RecordBatch.rows_ofRows {types : List DataType} (cols : List ℕ)
    (rows : List (TypedRow types)) :
    (RecordBatch.ofRows cols rows).rows = rows.map fun r => cols.map r.cell := by
  refine List.ext_getElem (by simp [RecordBatch.rows, RecordBatch.ofRows]) fun i h _ => ?_
  have hi : i < rows.length := by simpa [RecordBatch.rows, RecordBatch.ofRows] using h
  rw [List.getElem_map, ← RecordBatch.row_ofRows (List.getElem?_eq_getElem hi)]
  simp [RecordBatch.rows]

theorem take_drop_eq_map_range' (c : Column) {start len : ℕ} (h : start + len ≤ c.values.length) :
    (c.values.drop start).take len = (List.range' start len).map c.cell := by
  refine List.ext_getElem (by simp; omega) fun i h₁ h₂ => ?_
  have hi : start + i < c.values.length := by
    simp only [List.length_map, List.length_range'] at h₂
    omega
  simp [Column.cell, List.getD_eq_getElem?_getD, List.getElem?_eq_getElem hi]

theorem Column.values_eq_map_range (c : Column) :
    c.values = (List.range c.values.length).map c.cell := by
  have h := take_drop_eq_map_range' c (show 0 + c.values.length ≤ _ by omega)
  rwa [List.drop_zero, List.take_length, ← List.range_eq_range'] at h

/-- Filtering keeps the rows that pass, in order. -/
theorem RecordBatch.rows_filterRows (b : RecordBatch) (keep : ℕ → Bool) :
    (b.filterRows keep).rows = ((List.range b.numRows).filter keep).map b.row := by
  have hvalues : ∀ c ∈ b.columns, filterIdx keep c.values =
      ((List.range b.numRows).filter keep).map c.cell := by
    intro c hc
    have hzip : c.values.zipIdx = (List.range b.numRows).map fun i => (c.cell i, i) := by
      rw [← b.length_eq c hc]
      refine List.ext_getElem (by simp) fun i h₁ h₂ => ?_
      have hi : i < c.values.length := by simpa using h₂
      simp [Column.cell, List.getD_eq_getElem?_getD, List.getElem?_eq_getElem hi]
    rw [filterIdx, hzip, List.filter_map, List.map_map]
    rfl
  set kept := (List.range b.numRows).filter keep with hkept
  refine List.ext_getElem (by simp [RecordBatch.rows, RecordBatch.filterRows, ← hkept]) fun i h₁ h₂ => ?_
  have hi : i < kept.length := by simpa using h₂
  simp only [RecordBatch.rows, RecordBatch.row, RecordBatch.filterRows, List.getElem_map,
    List.getElem_range, List.map_map]
  refine List.map_congr_left fun c hc => ?_
  simp only [Function.comp_apply, Column.cell, hvalues c hc, List.getD_eq_getElem?_getD, List.getElem?_map,
    List.getElem?_eq_getElem hi, Option.map_some, Option.getD_some]

section Spec

variable {edits : BlobEdits} {colIdx : ℕ} {col : Column}

/-- The slot of column `col` in the absolute row `abs` after the overrides. -/
def BlobEdits.newCell (edits : BlobEdits) (abs col : ℕ) (old : Option ArrowValue) :
    Option ArrowValue :=
  match edits.overrideAt abs col with
  | some replacement => replacement.cell 0
  | none => old

/-- The overrides of a column are one value each, of the column's type. -/
def BlobEdits.Fits (edits : BlobEdits) (colIdx : ℕ) (ty : DataType) : Prop :=
  ∀ abs replacement, edits.overrideAt abs colIdx = some replacement →
    replacement.values.length = 1 ∧ replacement.dataType = ty

/-- The same of the `n` rows from `baseOffset` on. -/
def BlobEdits.FitsWithin (edits : BlobEdits) (colIdx : ℕ) (ty : DataType) (baseOffset n : ℕ) : Prop :=
  ∀ abs replacement, baseOffset ≤ abs → abs < baseOffset + n →
    edits.overrideAt abs colIdx = some replacement →
      replacement.values.length = 1 ∧ replacement.dataType = ty

theorem BlobEdits.Fits.within {ty : DataType} (h : edits.Fits colIdx ty) (baseOffset n : ℕ) :
    edits.FitsWithin colIdx ty baseOffset n :=
  fun abs replacement _ _ => h abs replacement

theorem BlobEdits.newCell_of_none {abs : ℕ} (h : edits.overrideAt abs colIdx = none)
    (old : Option ArrowValue) : edits.newCell abs colIdx old = old := by
  rw [BlobEdits.newCell, h]

/-- The slice between two rows of a splice. -/
theorem gap_values {a b : ℕ} (hb : b ≤ col.values.length) :
    (if a < b then [col.slice a (b - a)] else []).flatMap Column.values =
      (List.range' a (b - a)).map col.cell := by
  split_ifs with hlt
  · rw [List.flatMap_singleton]
    exact take_drop_eq_map_range' col (by omega)
  · rw [show b - a = 0 by omega]
    rfl

theorem gap_dataType {a b : ℕ} {piece : Column}
    (h : piece ∈ if a < b then [col.slice a (b - a)] else []) : piece.dataType = col.dataType := by
  split_ifs at h
  · rw [List.mem_singleton.mp h]
    rfl
  · cases h

/-- The piece of one row is its new slot. -/
theorem splicePiece_values {baseOffset row : ℕ} {piece : Column} (hrow : row < col.values.length)
    (h : splicePiece edits baseOffset colIdx col (baseOffset + row) = .ok piece) :
    piece.values = [edits.newCell (baseOffset + row) colIdx (col.cell row)] := by
  rw [splicePiece] at h
  rw [BlobEdits.newCell]
  cases ho : edits.overrideAt (baseOffset + row) colIdx with
  | some replacement =>
    simp only [ho] at h
    split_ifs at h with hlen
    obtain rfl := Except.ok.inj h
    obtain ⟨v, hv⟩ := List.length_eq_one_iff.mp (not_not.mp hlen)
    simp [hv, Column.cell]
  | none =>
    rw [ho] at h
    obtain rfl := Except.ok.inj h
    rw [Nat.add_sub_cancel_left]
    exact take_drop_eq_map_range' col (show row + 1 ≤ _ by omega)

/-- An override of one value is accepted. -/
theorem splicePiece_eq_ok {baseOffset row : ℕ}
    (hfits : edits.FitsWithin colIdx col.dataType baseOffset col.values.length)
    (hrow : row < col.values.length) :
    ∃ piece, splicePiece edits baseOffset colIdx col (baseOffset + row) = .ok piece ∧
      piece.dataType = col.dataType := by
  rw [splicePiece]
  cases h : edits.overrideAt (baseOffset + row) colIdx with
  | some replacement =>
    obtain ⟨hlen, htype⟩ := hfits _ _ (by omega) (by omega) h
    exact ⟨replacement, if_neg (not_not.mpr hlen), htype⟩
  | none => exact ⟨_, rfl, rfl⟩

/-- The rows from `cursor` on, cut at `row`. -/
theorem range'_cut {cursor row n : ℕ} (hle : cursor ≤ row) (hlt : row < n) :
    List.range' cursor (n - cursor) =
      List.range' cursor (row - cursor) ++ row :: List.range' (row + 1) (n - (row + 1)) := by
  have happend := List.range'_append_1 (s := cursor) (m := row - cursor) (n := n - (row + 1) + 1)
  rw [show cursor + (row - cursor) = row by omega] at happend
  rw [← List.range'_succ, happend, show row - cursor + (n - (row + 1) + 1) = n - cursor by omega]

/-- The pieces of a column, one after the other, are its new slots. -/
theorem splicePieces_values {baseOffset cursor : ℕ} {hits : List ℕ} {pieces : List Column}
    (h : splicePieces edits baseOffset colIdx col cursor hits = .ok pieces)
    (hsorted : hits.Pairwise (· < ·))
    (hrange : ∀ abs ∈ hits, baseOffset + cursor ≤ abs ∧ abs < baseOffset + col.values.length)
    (hnone : ∀ row, cursor ≤ row → row < col.values.length → baseOffset + row ∉ hits →
      edits.overrideAt (baseOffset + row) colIdx = none) :
    pieces.flatMap Column.values = (List.range' cursor (col.values.length - cursor)).map fun row =>
      edits.newCell (baseOffset + row) colIdx (col.cell row) := by
  induction hits generalizing cursor pieces with
  | nil =>
    obtain rfl := Except.ok.inj h
    rw [gap_values le_rfl]
    refine List.map_congr_left fun row hrow => ?_
    have := List.mem_range'_1.mp hrow
    rw [BlobEdits.newCell_of_none (hnone row (by omega) (by omega) List.not_mem_nil)]
  | cons abs hits ih =>
    obtain ⟨hlt, hrest⟩ := List.pairwise_cons.mp hsorted
    obtain ⟨hle, hend⟩ := hrange abs List.mem_cons_self
    obtain ⟨row, rfl⟩ : ∃ row, abs = baseOffset + row := ⟨abs - baseOffset, by omega⟩
    have hrow : row < col.values.length := by omega
    obtain ⟨piece, hpiece, h⟩ := except_bind_eq_ok.mp h
    obtain ⟨after, hafter, h⟩ := except_bind_eq_ok.mp h
    obtain rfl := Except.ok.inj h
    rw [Nat.add_sub_cancel_left] at hafter ⊢
    have hrange' : ∀ abs ∈ hits, baseOffset + (row + 1) ≤ abs ∧ abs < baseOffset + col.values.length :=
      fun abs habs => ⟨hlt abs habs, (hrange abs (List.mem_cons_of_mem _ habs)).2⟩
    have hvalues := ih hafter hrest hrange' fun r hr hn hmem =>
      hnone r (by omega) hn (by simp [hmem]; omega)
    have hgap : (List.range' cursor (row - cursor)).map col.cell =
        (List.range' cursor (row - cursor)).map fun r =>
          edits.newCell (baseOffset + r) colIdx (col.cell r) := by
      refine List.map_congr_left fun r hr => ?_
      have hr' := List.mem_range'_1.mp hr
      have hnotin : baseOffset + r ∉ (baseOffset + row) :: hits := by
        intro hmem
        rcases List.mem_cons.mp hmem with heq | hmem
        · omega
        · have := hlt _ hmem
          omega
      rw [BlobEdits.newCell_of_none (hnone r (by omega) (by omega) hnotin)]
    rw [List.flatMap_append, List.flatMap_cons, gap_values hrow.le, hgap,
      splicePiece_values hrow hpiece, hvalues, range'_cut (show cursor ≤ row by omega) hrow,
      List.map_append, List.map_cons]
    rfl

/-- Overrides of one value of the column's type are spliced in. -/
theorem splicePieces_eq_ok {baseOffset cursor : ℕ} {hits : List ℕ}
    (hfits : edits.FitsWithin colIdx col.dataType baseOffset col.values.length)
    (hrange : ∀ abs ∈ hits, baseOffset ≤ abs ∧ abs < baseOffset + col.values.length) :
    ∃ pieces, splicePieces edits baseOffset colIdx col cursor hits = .ok pieces ∧
      (∀ piece ∈ pieces, piece.dataType = col.dataType) ∧ (hits ≠ [] → pieces ≠ []) := by
  induction hits generalizing cursor with
  | nil => exact ⟨_, rfl, fun piece hpiece => gap_dataType hpiece, absurd rfl⟩
  | cons abs hits ih =>
    obtain ⟨hle, hend⟩ := hrange abs List.mem_cons_self
    obtain ⟨row, rfl⟩ : ∃ row, abs = baseOffset + row := ⟨abs - baseOffset, by omega⟩
    obtain ⟨piece, hpiece, htype⟩ := splicePiece_eq_ok hfits (show row < _ by omega)
    obtain ⟨after, hafter, htypes, -⟩ := @ih (row + 1) fun abs habs =>
      hrange abs (List.mem_cons_of_mem _ habs)
    refine ⟨(if cursor < row then [col.slice cursor (row - cursor)] else []) ++ piece :: after,
      ?_, ?_, by simp⟩
    · rw [splicePieces, hpiece, Nat.add_sub_cancel_left]
      refine except_bind_eq_ok.mpr ⟨piece, rfl, except_bind_eq_ok.mpr ⟨after, hafter, rfl⟩⟩
    · intro p hp
      rcases List.mem_append.mp hp with hp | hp
      · exact gap_dataType hp
      · rcases List.mem_cons.mp hp with rfl | hp
        · exact htype
        · exact htypes p hp

/-- The hits of a batch are its overridden rows, in order. -/
theorem BlobEdits.hits_spec (hdistinct : (edits.updates.map Prod.fst).Nodup) (baseOffset n : ℕ) :
    (edits.hits baseOffset n).Pairwise (· < ·) ∧ ∀ abs, abs ∈ edits.hits baseOffset n ↔
      (baseOffset ≤ abs ∧ abs < baseOffset + n) ∧ abs ∈ edits.updates.map Prod.fst := by
  have hperm := List.perm_insertionSort (· ≤ ·) ((edits.updates.map Prod.fst).filter fun k =>
    baseOffset ≤ k ∧ k < baseOffset + n)
  have hnodup : (edits.hits baseOffset n).Nodup := hperm.nodup_iff.mpr (hdistinct.filter _)
  constructor
  · have hle : (edits.hits baseOffset n).Pairwise (· ≤ ·) := List.pairwise_insertionSort (· ≤ ·) _
    exact hle.imp₂ (fun a b h hne => lt_of_le_of_ne h hne) hnodup
  · intro abs
    rw [BlobEdits.hits, hperm.mem_iff, List.mem_filter, decide_eq_true_iff, and_comm]

theorem BlobEdits.overrideAt_of_notMem {abs : ℕ} (h : abs ∉ edits.updates.map Prod.fst) (col : ℕ) :
    edits.overrideAt abs col = none := by
  have hlookup : edits.updates.lookup abs = none := by
    rw [← Option.not_isSome_iff_eq_none, lookup_isSome_iff]
    exact h
  rw [BlobEdits.overrideAt, hlookup]
  rfl

theorem Column.concat_values {pieces : List Column} {c : Column} (h : Column.concat pieces = .ok c) :
    c.values = pieces.flatMap Column.values := by
  cases pieces with
  | nil => cases h
  | cons first rest =>
    simp only [Column.concat] at h
    split_ifs at h
    obtain rfl := Except.ok.inj h
    exact List.flatMap_cons.symm

/-- **One column after the overrides: its slots are the new ones.** -/
theorem spliceColumn_values (hdistinct : (edits.updates.map Prod.fst).Nodup) {baseOffset : ℕ}
    {new : Column} (h : spliceColumn edits baseOffset (edits.hits baseOffset col.values.length)
      colIdx col = .ok new) :
    new.values = (List.range col.values.length).map fun row =>
      edits.newCell (baseOffset + row) colIdx (col.cell row) := by
  obtain ⟨hsorted, hmem⟩ := BlobEdits.hits_spec hdistinct baseOffset col.values.length
  have hnone : ∀ row, row < col.values.length →
      baseOffset + row ∉ edits.hits baseOffset col.values.length →
        edits.overrideAt (baseOffset + row) colIdx = none := by
    intro row hrow hnot
    refine BlobEdits.overrideAt_of_notMem (fun hkey => hnot ((hmem _).mpr ⟨by omega, hkey⟩)) colIdx
  rw [spliceColumn] at h
  split_ifs at h with hany
  · obtain ⟨pieces, hpieces, hconcat⟩ := except_bind_eq_ok.mp h
    rw [Column.concat_values hconcat, splicePieces_values hpieces hsorted
      (fun abs habs => ((hmem abs).mp habs).1) fun row _ hrow => hnone row hrow, Nat.sub_zero,
      ← List.range_eq_range']
  · obtain rfl := Except.ok.inj h
    have hold : ∀ row, row < col.values.length →
        edits.newCell (baseOffset + row) colIdx (col.cell row) = col.cell row := by
      intro row hrow
      by_cases hhit : baseOffset + row ∈ edits.hits baseOffset col.values.length
      · exact BlobEdits.newCell_of_none (by simpa using fun h => hany (List.any_eq_true.mpr ⟨_, hhit, h⟩)) _
      · exact BlobEdits.newCell_of_none (hnone row hrow hhit) _
    conv_lhs => rw [col.values_eq_map_range]
    exact List.map_congr_left fun row hrow => (hold row (List.mem_range.mp hrow)).symm

/-- Overrides of the column's type are accepted, and keep it. -/
theorem spliceColumn_eq_ok (hdistinct : (edits.updates.map Prod.fst).Nodup) {baseOffset : ℕ}
    (hfits : edits.FitsWithin colIdx col.dataType baseOffset col.values.length) :
    ∃ new, spliceColumn edits baseOffset (edits.hits baseOffset col.values.length) colIdx col = .ok new ∧
      new.dataType = col.dataType := by
  obtain ⟨-, hmem⟩ := BlobEdits.hits_spec hdistinct baseOffset col.values.length
  rw [spliceColumn]
  split_ifs with hany
  · have hne : edits.hits baseOffset col.values.length ≠ [] := by
      rintro hnil
      rw [hnil] at hany
      cases hany
    obtain ⟨pieces, hpieces, htypes, hnonempty⟩ := @splicePieces_eq_ok edits colIdx col baseOffset 0
      _ hfits fun abs habs => ((hmem abs).mp habs).1
    obtain ⟨piece, rest, rfl⟩ := List.exists_cons_of_ne_nil (hnonempty hne)
    have hsame : ∀ p ∈ rest, p.dataType = piece.dataType := fun p hp => by
      rw [htypes p (List.mem_cons_of_mem _ hp), htypes piece List.mem_cons_self]
    exact ⟨_, except_bind_eq_ok.mpr ⟨_, hpieces, dif_pos hsame⟩, htypes piece List.mem_cons_self⟩
  · exact ⟨col, rfl, rfl⟩

/-- `RecordBatch::try_new` on columns of the schema's types, all of one length: only a NULL that
the schema does not allow is refused. -/
theorem RecordBatch.tryNew_eq_ok_iff {schema : List Field} {columns : List Column} {n : ℕ}
    (hne : columns ≠ []) (htypes : schema.map Field.dataType = columns.map Column.dataType)
    (hlength : ∀ c ∈ columns, c.values.length = n) {b : RecordBatch} :
    RecordBatch.tryNew schema columns = .ok b ↔ b.numRows = n ∧ b.columns = columns ∧
      ∀ fc ∈ schema.zip columns, fc.1.nullable = false → none ∉ fc.2.values := by
  have hcount : schema.length = columns.length := by simpa using congrArg List.length htypes
  have hmatch : ¬ ∃ fc ∈ schema.zip columns, fc.1.dataType ≠ fc.2.dataType := by
    rintro ⟨fc, hfc, hdiffer⟩
    obtain ⟨i, hi⟩ := List.getElem?_of_mem hfc
    obtain ⟨hf, hc⟩ := List.getElem?_zip_eq_some.mp hi
    have htype := congrArg (·[i]?) htypes
    simp only [List.getElem?_map, hf, hc, Option.map_some, Option.some.injEq] at htype
    exact hdiffer htype
  obtain ⟨c, cs, rfl⟩ := List.exists_cons_of_ne_nil hne
  have hsame : ∀ c' ∈ c :: cs, c'.values.length = c.values.length := fun c' hc' => by
    rw [hlength c' hc', hlength c List.mem_cons_self]
  rw [RecordBatch.tryNew, if_neg (not_not.mpr hcount), dif_pos hsame, if_neg hmatch]
  split_ifs with hnull
  · obtain ⟨fc, hfc, hnull⟩ := hnull
    rw [Bool.and_eq_true, Bool.not_eq_true', List.contains_iff_mem] at hnull
    constructor
    · intro h
      cases h
    · rintro ⟨-, -, hallowed⟩
      exact absurd hnull.2 (hallowed fc hfc hnull.1)
  · constructor
    · intro h
      obtain rfl := Except.ok.inj h
      refine ⟨hlength c List.mem_cons_self, rfl, fun fc hfc hfield hmem => hnull ⟨fc, hfc, ?_⟩⟩
      rw [Bool.and_eq_true, Bool.not_eq_true', List.contains_iff_mem]
      exact ⟨hfield, hmem⟩
    · rintro ⟨hrows, hcolumns, -⟩
      obtain ⟨numRows, columns, _⟩ := b
      subst hrows hcolumns
      simp only [hlength c List.mem_cons_self]

/-- Whether the row is deleted. -/
def BlobEdits.isDeleted (edits : BlobEdits) (abs : ℕ) : Bool :=
  (edits.deletes.map UInt32.toNat).contains abs

/-- The edits that the masks see: the range of a mask is cut at `u32::MAX`, which it does not
contain. -/
def BlobEdits.masked (edits : BlobEdits) : BlobEdits :=
  { edits with deletes := edits.deletes.filter (· ≠ 0xffffffff) }

theorem BlobEdits.isDeleted_masked {abs : ℕ} :
    edits.masked.isDeleted abs = true ↔ edits.isDeleted abs = true ∧ abs < 2 ^ 32 - 1 := by
  simp only [BlobEdits.isDeleted, BlobEdits.masked, List.contains_iff_mem, List.mem_map,
    List.mem_filter, decide_eq_true_iff]
  constructor
  · rintro ⟨k, ⟨hk, hmax⟩, rfl⟩
    have hne : k.toNat ≠ 2 ^ 32 - 1 := fun h => hmax (UInt32.toNat_inj.mp h)
    have hlt := k.toNat_lt
    exact ⟨⟨k, hk, rfl⟩, by omega⟩
  · rintro ⟨⟨k, hk, rfl⟩, hlt⟩
    refine ⟨k, ⟨hk, ?_⟩, rfl⟩
    rintro rfl
    exact absurd hlt (by decide)

/-- Below `u32::MAX` the masks see every delete. -/
theorem BlobEdits.isDeleted_masked_of_lt {abs : ℕ} (h : abs < 2 ^ 32 - 1) :
    edits.masked.isDeleted abs = edits.isDeleted abs := by
  rw [Bool.eq_iff_iff, BlobEdits.isDeleted_masked]
  exact and_iff_left h

/-- Which rows of a batch its mask drops. -/
theorem BlobEdits.contains_deletesInRange {baseOffset n row : ℕ} (hrow : row < n) :
    (edits.deletesInRange baseOffset n).contains (baseOffset + row) =
      edits.masked.isDeleted (baseOffset + row) := by
  rw [Bool.eq_iff_iff, BlobEdits.isDeleted_masked, BlobEdits.isDeleted, List.contains_iff_mem,
    List.contains_iff_mem, BlobEdits.deletesInRange, List.mem_filter, decide_eq_true_iff]
  have hmod := Nat.mod_le baseOffset (2 ^ 32)
  exact and_congr_right fun _ => by omega

/-- **The mask of a batch drops the deleted rows.** -/
theorem applyDeletes_rows {baseOffset : ℕ} {updated out : RecordBatch}
    (h : applyDeletes edits baseOffset updated updated.numRows = .ok out) :
    out.columns.map Column.dataType = updated.columns.map Column.dataType ∧
      out.rows = ((List.range updated.numRows).filter fun row =>
        !edits.masked.isDeleted (baseOffset + row)).map updated.row := by
  have hkeep : ∀ row ∈ List.range updated.numRows,
      (edits.deletesInRange baseOffset updated.numRows).contains (baseOffset + row) =
        edits.masked.isDeleted (baseOffset + row) := fun row hrow =>
    BlobEdits.contains_deletesInRange (List.mem_range.mp hrow)
  simp only [applyDeletes] at h
  split_ifs at h with hempty hbefore
  · obtain rfl := Except.ok.inj h
    refine ⟨rfl, ?_⟩
    rw [List.filter_eq_self.mpr fun row hrow => ?_]
    · rfl
    · rw [← hkeep row hrow, List.isEmpty_iff.mp hempty]
      rfl
  · obtain rfl := Except.ok.inj h
    refine ⟨by simp [RecordBatch.filterRows, Function.comp_def], ?_⟩
    rw [RecordBatch.rows_filterRows]
    congr 1
    exact List.filter_congr fun row hrow => by rw [hkeep row hrow]

/-- Below `2^32` rows the mask can be built. -/
theorem applyDeletes_eq_ok (edits : BlobEdits) {baseOffset : ℕ} (updated : RecordBatch)
    (h : baseOffset + updated.numRows < 2 ^ 32) :
    ∃ out, applyDeletes edits baseOffset updated updated.numRows = .ok out ∧
      out.columns.map Column.dataType = updated.columns.map Column.dataType ∧
      out.rows = ((List.range updated.numRows).filter fun row =>
        !edits.isDeleted (baseOffset + row)).map updated.row := by
  obtain ⟨out, hout⟩ : ∃ out, applyDeletes edits baseOffset updated updated.numRows = .ok out := by
    simp only [applyDeletes]
    split_ifs with hempty hbefore
    · exact ⟨_, rfl⟩
    · obtain ⟨abs, habs, hlt⟩ := List.any_eq_true.mp hbefore
      have hrange := of_decide_eq_true (List.mem_filter.mp habs).2
      have hlt' := of_decide_eq_true hlt
      rw [Nat.mod_eq_of_lt (by omega)] at hrange
      omega
    · exact ⟨_, rfl⟩
  obtain ⟨htypes, hrows⟩ := applyDeletes_rows hout
  refine ⟨out, hout, htypes, hrows.trans (congrArg _ (List.filter_congr fun row hrow => ?_))⟩
  have hlt := List.mem_range.mp hrow
  rw [BlobEdits.isDeleted_masked_of_lt (by omega)]

/-- A batch after its edits: the columns keep their types, and the rows that are left have the
new slots. -/
structure BlobEdits.Edited (edits : BlobEdits) (baseOffset : ℕ) (batch out : RecordBatch) : Prop where
  types : out.columns.map Column.dataType = batch.columns.map Column.dataType
  rows : out.rows = ((List.range batch.numRows).filter fun row =>
    !edits.isDeleted (baseOffset + row)).map fun row =>
      (batch.row row).mapIdx fun colIdx old => edits.newCell (baseOffset + row) colIdx old

section Batch

variable {schema : List Field} {batch : RecordBatch} {baseOffset : ℕ}

/-- The columns of a batch after the overrides, slot by slot. -/
structure SplicedCells (edits : BlobEdits) (baseOffset : ℕ) (batch : RecordBatch)
    (columns : List Column) : Prop where
  length_eq : columns.length = batch.columns.length
  values : ∀ (i : ℕ) c new, batch.columns[i]? = some c → columns[i]? = some new →
    new.values = (List.range batch.numRows).map fun row =>
      edits.newCell (baseOffset + row) i (c.cell row)

/-- The columns of a batch after the overrides. -/
structure Spliced (edits : BlobEdits) (baseOffset : ℕ) (batch : RecordBatch)
    (columns : List Column) : Prop where
  length_eq : columns.length = batch.columns.length
  column : ∀ (i : ℕ) c new, batch.columns[i]? = some c → columns[i]? = some new →
    new.dataType = c.dataType ∧ new.values = (List.range batch.numRows).map fun row =>
      edits.newCell (baseOffset + row) i (c.cell row)

variable {columns : List Column}

theorem Spliced.cells (h : Spliced edits baseOffset batch columns) :
    SplicedCells edits baseOffset batch columns :=
  ⟨h.length_eq, fun i c new hc hnew => (h.column i c new hc hnew).2⟩

/-- What the loop over the columns leaves. -/
theorem SplicedCells.of_mapM (hdistinct : (edits.updates.map Prod.fst).Nodup)
    (h : (batch.columns.zipIdx.mapM fun (col, colIdx) =>
      spliceColumn edits baseOffset (edits.hits baseOffset batch.numRows) colIdx col) = .ok columns) :
    SplicedCells edits baseOffset batch columns := by
  have hall := mapM_eq_ok_iff.mp h
  refine ⟨by rw [← hall.length_eq, List.length_zipIdx], fun i c new hc hnew => ?_⟩
  have hzip : batch.columns.zipIdx[i]? = some (c, i) := by
    rw [List.getElem?_zipIdx, hc]
    simp
  obtain ⟨new', hnew', hsplice⟩ := forall₂_getElem? hall hzip
  obtain rfl : new = new' := Option.some.inj (hnew.symm.trans hnew')
  simp only [← batch.length_eq c (List.mem_of_getElem? hc)] at hsplice ⊢
  exact spliceColumn_values hdistinct hsplice

theorem exists_spliced (hdistinct : (edits.updates.map Prod.fst).Nodup)
    (hfits : ∀ (i : ℕ) c, batch.columns[i]? = some c →
      edits.FitsWithin i c.dataType baseOffset batch.numRows) :
    ∃ columns, (batch.columns.zipIdx.mapM fun (col, colIdx) =>
        spliceColumn edits baseOffset (edits.hits baseOffset batch.numRows) colIdx col) = .ok columns ∧
      Spliced edits baseOffset batch columns := by
  have hsplice : ∀ x ∈ batch.columns.zipIdx, ∃ new,
      spliceColumn edits baseOffset (edits.hits baseOffset batch.numRows) x.2 x.1 = .ok new ∧
        new.dataType = x.1.dataType := by
    rintro ⟨c, i⟩ hx
    have hc := List.mem_zipIdx_iff_getElem?.mp hx
    have hfit := hfits i c hc
    rw [← batch.length_eq c (List.mem_of_getElem? hc)] at hfit ⊢
    exact spliceColumn_eq_ok hdistinct hfit
  obtain ⟨columns, hall⟩ := exists_forall₂ hsplice
  have hcolumns := mapM_eq_ok_iff.mpr (hall.imp fun _ _ h => h.1)
  have hcells := SplicedCells.of_mapM hdistinct hcolumns
  refine ⟨columns, hcolumns, hcells.length_eq, fun i c new hc hnew => ⟨?_, hcells.values i c new hc hnew⟩⟩
  have hzip : batch.columns.zipIdx[i]? = some (c, i) := by
    rw [List.getElem?_zipIdx, hc]
    simp
  obtain ⟨new', hnew', -, htype⟩ := forall₂_getElem? hall hzip
  rwa [Option.some.inj (hnew.symm.trans hnew')]

theorem Spliced.map_dataType (h : Spliced edits baseOffset batch columns) :
    columns.map Column.dataType = batch.columns.map Column.dataType := by
  refine List.ext_getElem (by simpa using h.length_eq) fun i h₁ h₂ => ?_
  simp only [List.length_map] at h₁ h₂
  simp only [List.getElem_map]
  exact (h.column i _ _ (List.getElem?_eq_getElem h₂) (List.getElem?_eq_getElem h₁)).1

theorem SplicedCells.values_length (h : SplicedCells edits baseOffset batch columns) :
    ∀ c ∈ columns, c.values.length = batch.numRows := by
  intro new hnew
  obtain ⟨i, hi⟩ := List.getElem?_of_mem hnew
  have hlt : i < batch.columns.length := h.length_eq ▸ (List.getElem?_eq_some_iff.mp hi).1
  rw [h.values i _ _ (List.getElem?_eq_getElem hlt) hi, List.length_map, List.length_range]

theorem SplicedCells.row (h : SplicedCells edits baseOffset batch columns) {row : ℕ}
    (hrow : row < batch.numRows) : columns.map (·.cell row) =
      (batch.row row).mapIdx fun colIdx old => edits.newCell (baseOffset + row) colIdx old := by
  refine List.ext_getElem (by simp [RecordBatch.row, h.length_eq]) fun i h₁ h₂ => ?_
  simp only [List.length_map, List.length_mapIdx, RecordBatch.row] at h₁ h₂
  have hspec := h.values i _ _ (List.getElem?_eq_getElem h₂) (List.getElem?_eq_getElem h₁)
  simp [RecordBatch.row, Column.cell, hspec, hrow]

/-- A NULL in the new columns that the schema does not allow, by its place in the batch. -/
theorem Spliced.nulls_allowed_iff (h : Spliced edits baseOffset batch columns) :
    (∀ fc ∈ schema.zip columns, fc.1.nullable = false → none ∉ fc.2.values) ↔
      ∀ (i : ℕ) f c, schema[i]? = some f → batch.columns[i]? = some c → f.nullable = false →
        ∀ row < batch.numRows, edits.newCell (baseOffset + row) i (c.cell row) ≠ none := by
  constructor
  · intro hallowed i f c hf hc hfield row hrow hnull
    have hlt : i < columns.length := h.length_eq ▸ (List.getElem?_eq_some_iff.mp hc).1
    have hnew := List.getElem?_eq_getElem hlt
    have hzip : (schema.zip columns)[i]? = some (f, columns[i]) :=
      List.getElem?_zip_eq_some.mpr ⟨hf, hnew⟩
    refine hallowed _ (List.mem_of_getElem? hzip) hfield ?_
    rw [(h.column i c _ hc hnew).2]
    exact List.mem_map.mpr ⟨row, List.mem_range.mpr hrow, hnull⟩
  · rintro hallowed ⟨f, new⟩ hmem hfield hnull
    obtain ⟨i, hi⟩ := List.getElem?_of_mem hmem
    obtain ⟨hf, hnew⟩ := List.getElem?_zip_eq_some.mp hi
    have hlt : i < batch.columns.length := h.length_eq ▸ (List.getElem?_eq_some_iff.mp hnew).1
    have hc := List.getElem?_eq_getElem hlt
    rw [(h.column i _ _ hc hnew).2] at hnull
    obtain ⟨row, hrow, hnone⟩ := List.mem_map.mp hnull
    exact hallowed i f _ hf hc hfield row (List.mem_range.mp hrow) hnone

/-- A batch is made of columns of the schema's types, at least one. -/
theorem RecordBatch.tryNew_types {b : RecordBatch} (h : RecordBatch.tryNew schema columns = .ok b) :
    columns ≠ [] ∧ schema.map Field.dataType = columns.map Column.dataType := by
  cases columns with
  | nil =>
    rw [RecordBatch.tryNew] at h
    split_ifs at h
  | cons first rest =>
    unfold RecordBatch.tryNew at h
    simp only at h
    split_ifs at h with hcount hnull hlength htypes
    refine ⟨List.cons_ne_nil _ _, List.ext_getElem (by simpa using hcount) fun i h₁ h₂ => ?_⟩
    rw [List.length_map] at h₁ h₂
    rw [List.getElem_map, List.getElem_map]
    by_contra hdiffer
    refine htypes ⟨(schema[i], (first :: rest)[i]), ?_, hdiffer⟩
    exact List.mem_of_getElem? (List.getElem?_zip_eq_some.mpr
      ⟨List.getElem?_eq_getElem h₁, List.getElem?_eq_getElem h₂⟩)

/-- A batch has a column. -/
theorem columns_ne_nil_of_applyEditsBatch {out : RecordBatch}
    (h : applyEditsBatch edits baseOffset schema batch = .ok out) : batch.columns ≠ [] := by
  intro hnil
  obtain ⟨columns, hcolumns, h⟩ := except_bind_eq_ok.mp h
  obtain ⟨updated, hupdated, -⟩ := except_bind_eq_ok.mp h
  rw [FdwResult.lift_eq_ok] at hcolumns hupdated
  rw [hnil, List.zipIdx_nil, List.mapM_nil] at hcolumns
  obtain rfl := Except.ok.inj hcolumns
  unfold RecordBatch.tryNew at hupdated
  split_ifs at hupdated

/-- **The kernel, on columns of the schema's types: it fails only for a NULL that is not allowed,
and leaves the rows that are not deleted, with their new slots.** -/
theorem applyEditsBatch_spec (hdistinct : (edits.updates.map Prod.fst).Nodup)
    (hne : batch.columns ≠ []) (hrows : baseOffset + batch.numRows < 2 ^ 32)
    (htypes : schema.map Field.dataType = batch.columns.map Column.dataType)
    (hfits : ∀ (i : ℕ) c, batch.columns[i]? = some c →
      edits.FitsWithin i c.dataType baseOffset batch.numRows) :
    ((∃ out, applyEditsBatch edits baseOffset schema batch = .ok out) ↔
        ∀ (i : ℕ) f c, schema[i]? = some f → batch.columns[i]? = some c → f.nullable = false →
          ∀ row < batch.numRows, edits.newCell (baseOffset + row) i (c.cell row) ≠ none) ∧
      ∀ out, applyEditsBatch edits baseOffset schema batch = .ok out →
        edits.Edited baseOffset batch out := by
  obtain ⟨columns, hmapM, hspliced⟩ := exists_spliced hdistinct hfits
  have hnonempty : columns ≠ [] := by
    rw [← List.length_pos_iff, hspliced.length_eq]
    exact List.length_pos_iff.mpr hne
  have htry : ∀ b, RecordBatch.tryNew schema columns = .ok b ↔ _ := fun b =>
    RecordBatch.tryNew_eq_ok_iff hnonempty (htypes.trans hspliced.map_dataType.symm)
      hspliced.cells.values_length
  have hallowed : ∀ out, applyEditsBatch edits baseOffset schema batch = .ok out →
      ∀ fc ∈ schema.zip columns, fc.1.nullable = false → none ∉ fc.2.values := by
    intro out hout
    obtain ⟨columns', hcolumns', hout⟩ := except_bind_eq_ok.mp hout
    obtain rfl : columns' = columns :=
      Except.ok.inj ((FdwResult.lift_eq_ok.mp hcolumns').symm.trans hmapM)
    obtain ⟨updated, hupdated, -⟩ := except_bind_eq_ok.mp hout
    exact ((htry updated).mp (FdwResult.lift_eq_ok.mp hupdated)).2.2
  have hedited : (∀ fc ∈ schema.zip columns, fc.1.nullable = false → none ∉ fc.2.values) →
      ∃ out, applyEditsBatch edits baseOffset schema batch = .ok out ∧
        edits.Edited baseOffset batch out := by
    intro hallowed
    let updated : RecordBatch := ⟨batch.numRows, columns, hspliced.cells.values_length⟩
    have hupdated := (htry updated).mpr ⟨rfl, rfl, hallowed⟩
    obtain ⟨out, hout, houtTypes, houtRows⟩ := applyDeletes_eq_ok edits updated hrows
    refine ⟨out, ?_, houtTypes.trans hspliced.map_dataType, ?_⟩
    · refine except_bind_eq_ok.mpr ⟨columns, FdwResult.lift_eq_ok.mpr hmapM, ?_⟩
      exact except_bind_eq_ok.mpr ⟨_, FdwResult.lift_eq_ok.mpr hupdated, hout⟩
    · rw [houtRows]
      refine List.map_congr_left fun row hrow => ?_
      exact hspliced.cells.row (List.mem_range.mp (List.mem_of_mem_filter hrow))
  rw [← hspliced.nulls_allowed_iff]
  constructor
  · constructor
    · rintro ⟨out, hout⟩
      exact hallowed out hout
    · intro h
      obtain ⟨out, hout, -⟩ := hedited h
      exact ⟨out, hout⟩
  · intro out hout
    obtain ⟨out', hout', h⟩ := hedited (hallowed out hout)
    obtain rfl : out = out' := Except.ok.inj (hout.symm.trans hout')
    exact h

/-- **A batch that the kernel accepts**, whatever its types and its place in the file: the rows that
its mask leaves, with their new slots. -/
theorem applyEditsBatch_rows (hdistinct : (edits.updates.map Prod.fst).Nodup) {out : RecordBatch}
    (h : applyEditsBatch edits baseOffset schema batch = .ok out) :
    out.columns.map Column.dataType = schema.map Field.dataType ∧
      out.rows = ((List.range batch.numRows).filter fun row =>
        !edits.masked.isDeleted (baseOffset + row)).map fun row =>
          (batch.row row).mapIdx fun colIdx old => edits.newCell (baseOffset + row) colIdx old := by
  obtain ⟨columns, hcolumns, hrest⟩ := except_bind_eq_ok.mp h
  obtain ⟨updated, hupdated, hdeletes⟩ := except_bind_eq_ok.mp hrest
  rw [FdwResult.lift_eq_ok] at hcolumns hupdated
  have hcells := SplicedCells.of_mapM hdistinct hcolumns
  obtain ⟨hne, htypes⟩ := RecordBatch.tryNew_types hupdated
  obtain ⟨hnumRows, rfl, -⟩ :=
    (RecordBatch.tryNew_eq_ok_iff hne htypes hcells.values_length).mp hupdated
  rw [← hnumRows] at hdeletes
  obtain ⟨houtTypes, houtRows⟩ := applyDeletes_rows hdeletes
  refine ⟨houtTypes.trans htypes.symm, ?_⟩
  rw [houtRows, hnumRows]
  refine List.map_congr_left fun row hrow => ?_
  exact hcells.row (List.mem_range.mp (List.mem_of_mem_filter hrow))

end Batch

end Spec

end ParquetAzureFdw
