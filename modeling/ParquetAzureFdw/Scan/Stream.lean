/-
# The stream of a blob

What the parquet crate does for the scan.  A file is a list of row groups; a
stream over it reads the groups that pruning kept, in order, drops in each the
rows that a predicate of the row filter does not accept, and returns the rest in
batches over the projected root columns.  How it cuts rows into batches is the
parameter `BatchCut`.

Every row of a batch carries its position in the whole file.  The scan never
reads it: it is there to say which row of the file a returned row is.  The
positions of a stream are an ascending selection of the file's
(`streamPositions_sublist`), and all of them when no expression is pushed
(`streamPositions_of_no_filter`).
-/

import ParquetAzureFdw.Pushdown.RowFilter
import ParquetAzureFdw.Pushdown.RowGroups

namespace ParquetAzureFdw

/-- A row group: its rows, and the metadata of its column chunks. -/
structure RowGroup (types : List DataType) where
  rows : List (TypedRow types)
  columns : List ColumnChunk

/-- A parquet file: the types of its root columns and its row groups. -/
structure ParquetFile where
  types : List DataType
  rowGroups : List (RowGroup types)

namespace ParquetFile

/-- All rows of the file. -/
def rows (file : ParquetFile) : List (TypedRow file.types) := file.rowGroups.flatMap (·.rows)

/-- `file_metadata().num_rows()`. -/
def numRows (file : ParquetFile) : ℕ := file.rows.length

end ParquetFile

/-- A row with its position in the file. -/
abbrev PlacedRow (types : List DataType) := TypedRow types × ℕ

/-- The rows of each group with their positions, the first at `offset`. -/
def placeGroups {types : List DataType} : ℕ → List (RowGroup types) → List (List (PlacedRow types))
  | _, [] => []
  | offset, g :: gs => g.rows.zipIdx offset :: placeGroups (offset + g.rows.length) gs

/-- How the reader cuts the rows of a group into batches. -/
structure BatchCut where
  cut : {α : Type} → List α → List (List α)
  flatten_cut : ∀ {α : Type} (rows : List α), (cut rows).flatten = rows

/-- A reader that returns each row group as one batch. -/
def oneBatch : BatchCut := ⟨fun rows => [rows], by simp⟩

/-- A batch of a stream, with the mark `τ` of what it was read from. -/
structure FileBatch (τ : Type) where
  source : τ
  types : List DataType
  roots : List ℕ
  rows : List (PlacedRow types)

/-- The batch as the scan sees it. -/
def FileBatch.batch {τ : Type} (b : FileBatch τ) : RecordBatch := .ofRows b.roots (b.rows.map Prod.fst)

/-- The rows whose entry in the mask is true. -/
def keepTrue {α : Type} : List α → BooleanArray → List α
  | r :: rows, t :: mask => if t = some true then r :: keepTrue rows mask else keepTrue rows mask
  | _, _ => []

/-- One predicate of the row filter on the rows still selected. -/
def applyPredicate {types : List DataType} (rows : List (PlacedRow types)) (p : ArrowPredicate) :
    Outcome (List (PlacedRow types)) :=
  if rows.isEmpty then .ok []
  else do
    let mask ← p.evaluate (rows.map Prod.fst)
    return keepTrue rows mask

/-- The row filter on the rows of one group. -/
def filterGroup {types : List DataType} (preds : List ArrowPredicate)
    (rows : List (PlacedRow types)) : Outcome (List (PlacedRow types)) :=
  preds.foldlM applyPredicate rows

/-- `with_row_groups`. -/
def selectGroups {α : Type} (keep : Option (List ℕ)) (groups : List α) : List α :=
  match keep with
  | none => groups
  | some keep => keep.filterMap fun i => groups[i]?

/-- `PushedExprFilter::keep_row_groups`. -/
def keepRowGroups (file : ParquetFile) (exprs : List PushedExpr) : Option (List ℕ) :=
  pruneRowGroups file.types.length (file.rowGroups.map (·.columns)) exprs

section Open

variable {τ : Type} (parquet : BatchCut) (source : τ)

/-- The items of the stream for one group. -/
def groupItems (types : List DataType) (roots : List ℕ) (preds : List ArrowPredicate)
    (rows : List (PlacedRow types)) : List (Outcome (FileBatch τ)) :=
  match filterGroup preds rows with
  | .error f => [.error f]
  | .ok kept => (parquet.cut kept).map fun rows => .ok ⟨source, types, roots, rows⟩

/-- `with_projection`: the root columns of the batches. -/
def projectedRoots (file : ParquetFile) : Option (List ℕ) → Outcome (List ℕ)
  | none => .ok (List.range file.types.length)
  | some cols => projectionRoots file.types.length cols

/-- `with_row_filter`: the predicates of the filter. -/
def filterPredicates (file : ParquetFile) : Option (List PushedExpr) → Outcome (List ArrowPredicate)
  | none => .ok []
  | some exprs => (·.getD []) <$> buildRowFilter file.types.length exprs

/-- The part of `next_row` that opens the stream of a blob, and `open_stream`. -/
def openStream (projection : Option (List ℕ)) (qualFilter : Option (List PushedExpr))
    (file : ParquetFile) : Outcome (List (Outcome (FileBatch τ))) := do
  let keep := qualFilter.bind (keepRowGroups file)
  let roots ← projectedRoots file projection
  let preds ← filterPredicates file qualFilter
  return (selectGroups keep (placeGroups 0 file.rowGroups)).flatMap
    (groupItems parquet source file.types roots preds)

end Open

/-- The positions of the rows that a stream returns before it ends or fails. -/
def streamPositions {τ : Type} : List (Outcome (FileBatch τ)) → List ℕ
  | [] => []
  | .error _ :: _ => []
  | .ok b :: rest => b.rows.map Prod.snd ++ streamPositions rest

/-! ### The rows of a stream -/

section Rows

variable {τ : Type} {types : List DataType}

theorem flatten_placeGroups (gs : List (RowGroup types)) (offset : ℕ) :
    (placeGroups offset gs).flatten = (gs.flatMap (·.rows)).zipIdx offset := by
  induction gs generalizing offset with
  | nil => rfl
  | cons g gs ih =>
    rw [placeGroups, List.flatten_cons, ih, List.flatMap_cons, List.zipIdx_append]

theorem keepTrue_sublist {α : Type} (rows : List α) (mask : BooleanArray) :
    (keepTrue rows mask).Sublist rows := by
  induction rows generalizing mask with
  | nil => cases mask <;> exact List.Sublist.refl []
  | cons r rows ih =>
    cases mask with
    | nil => exact List.nil_sublist _
    | cons t mask =>
      rw [keepTrue]
      split_ifs
      · exact (ih mask).cons_cons r
      · exact (ih mask).cons r

theorem applyPredicate_sublist {rows kept : List (PlacedRow types)} {p : ArrowPredicate}
    (h : applyPredicate rows p = .ok kept) : kept.Sublist rows := by
  unfold applyPredicate at h
  split_ifs at h
  · exact Except.ok.inj h ▸ List.nil_sublist rows
  · obtain ⟨mask, -, h⟩ := except_bind_eq_ok.mp h
    exact Except.ok.inj h ▸ keepTrue_sublist rows mask

/-- The row filter drops rows and keeps the order of the others. -/
theorem filterGroup_sublist {preds : List ArrowPredicate} {rows kept : List (PlacedRow types)}
    (h : filterGroup preds rows = .ok kept) : kept.Sublist rows :=
  foldlM_invariant (fun kept => kept.Sublist rows)
    (fun _ _ _ hstep hacc => (applyPredicate_sublist hstep).trans hacc) h (List.Sublist.refl rows)

/-- The items of batches that all came out well. -/
theorem streamPositions_map_ok (source : τ) (roots : List ℕ)
    (batches : List (List (PlacedRow types))) (rest : List (Outcome (FileBatch τ))) :
    streamPositions (batches.map (fun rows => .ok ⟨source, types, roots, rows⟩) ++ rest) =
      batches.flatten.map Prod.snd ++ streamPositions rest := by
  induction batches with
  | nil => rfl
  | cons b batches ih =>
    rw [List.map_cons, List.cons_append, streamPositions, ih, List.flatten_cons, List.map_append,
      List.append_assoc]

/-- Group by group, the stream returns some of the group's rows, in order. -/
theorem streamPositions_groups_sublist (parquet : BatchCut) (source : τ) (roots : List ℕ)
    (preds : List ArrowPredicate) (groups : List (List (PlacedRow types))) :
    (streamPositions (groups.flatMap (groupItems parquet source types roots preds))).Sublist
      (groups.flatten.map Prod.snd) := by
  induction groups with
  | nil => exact List.Sublist.refl _
  | cons g groups ih =>
    rw [List.flatMap_cons, List.flatten_cons, List.map_append, groupItems]
    cases h : filterGroup preds g with
    | error f => exact List.nil_sublist _
    | ok kept =>
      simp only [streamPositions_map_ok, parquet.flatten_cut]
      exact ((filterGroup_sublist h).map _).append ih

theorem selectGroups_sublist {α : Type} {keep : Option (List ℕ)} {groups : List α}
    (h : ∀ l, keep = some l → l.Sublist (List.range groups.length)) :
    (selectGroups keep groups).Sublist groups := by
  cases keep with
  | none => exact List.Sublist.refl groups
  | some l =>
    have hall : (List.range groups.length).filterMap (fun i => groups[i]?) = groups := by
      clear h
      induction groups with
      | nil => rfl
      | cons g groups ih =>
        simp [List.range_succ_eq_map, List.filterMap_map, ih]
    have hsub := (h l rfl).filterMap fun i => groups[i]?
    rwa [hall] at hsub

theorem mem_of_mem_selectGroups {α : Type} {keep : Option (List ℕ)} {groups : List α} {g : α}
    (h : g ∈ selectGroups keep groups) : g ∈ groups := by
  cases keep with
  | none => exact h
  | some l =>
    obtain ⟨i, -, hi⟩ := List.mem_filterMap.mp h
    exact List.mem_of_getElem? hi

end Rows

section Stream

variable {τ : Type} {parquet : BatchCut} {source : τ} {projection : Option (List ℕ)}
  {qualFilter : Option (List PushedExpr)} {file : ParquetFile} {items : List (Outcome (FileBatch τ))}

theorem length_placeGroups {types : List DataType} (gs : List (RowGroup types)) (offset : ℕ) :
    (placeGroups offset gs).length = gs.length := by
  induction gs generalizing offset with
  | nil => rfl
  | cons g gs ih => simp [placeGroups, ih]

theorem placeGroups_positions (file : ParquetFile) :
    (placeGroups 0 file.rowGroups).flatten.map Prod.snd = List.range file.numRows := by
  rw [flatten_placeGroups, List.zipIdx_map_snd, List.range_eq_range', ParquetFile.numRows,
    ParquetFile.rows]

/-- **A stream returns rows of the file in file order, each at most once.** -/
theorem streamPositions_sublist
    (h : openStream parquet source projection qualFilter file = .ok items) :
    (streamPositions items).Sublist (List.range file.numRows) := by
  obtain ⟨roots, -, h⟩ := except_bind_eq_ok.mp h
  obtain ⟨preds, -, h⟩ := except_bind_eq_ok.mp h
  rw [← Except.ok.inj h, ← placeGroups_positions]
  refine (streamPositions_groups_sublist parquet source roots _ _).trans ?_
  refine ((selectGroups_sublist ?_).flatten).map Prod.snd
  intro keep hkeep
  obtain ⟨exprs, -, hkeep⟩ := Option.bind_eq_some_iff.mp hkeep
  simpa [length_placeGroups] using pruneRowGroups_sorted hkeep

/-- **With no expression pushed, it returns them all.** -/
theorem streamPositions_of_no_filter
    (h : openStream parquet source projection none file = .ok items) :
    streamPositions items = List.range file.numRows := by
  obtain ⟨roots, -, h⟩ := except_bind_eq_ok.mp h
  obtain ⟨preds, hpreds, h⟩ := except_bind_eq_ok.mp h
  obtain rfl : [] = preds := Except.ok.inj hpreds
  rw [← Except.ok.inj h, ← placeGroups_positions]
  show streamPositions ((placeGroups 0 file.rowGroups).flatMap
    (groupItems parquet source file.types roots [])) = _
  induction placeGroups 0 file.rowGroups with
  | nil => rfl
  | cons g groups ih =>
    have hitems : groupItems parquet source file.types roots [] g =
        (parquet.cut g).map fun rows => .ok ⟨source, file.types, roots, rows⟩ := rfl
    rw [List.flatMap_cons, hitems, streamPositions_map_ok, parquet.flatten_cut, ih,
      List.flatten_cons, List.map_append]

/-- **A batch has the projected columns of the file, and every row of it is the row of
the file at its position.** -/
theorem exists_of_mem_openStream
    (h : openStream parquet source projection qualFilter file = .ok items) {b : FileBatch τ}
    (hb : .ok b ∈ items) :
    ∃ roots rows, projectedRoots file projection = .ok roots ∧ b = ⟨source, file.types, roots, rows⟩ ∧
      ∀ x ∈ rows, file.rows[x.2]? = some x.1 := by
  obtain ⟨roots, hroots, h⟩ := except_bind_eq_ok.mp h
  obtain ⟨preds, -, h⟩ := except_bind_eq_ok.mp h
  rw [← Except.ok.inj h] at hb
  obtain ⟨group, hgroup, hb⟩ := List.mem_flatMap.mp hb
  unfold groupItems at hb
  split at hb
  · simp at hb
  · rename_i kept hkept
    obtain ⟨rows, hrows, hbatch⟩ := List.mem_map.mp hb
    refine ⟨roots, rows, hroots, (Except.ok.inj hbatch).symm, fun x hx => ?_⟩
    have hxkept : x ∈ kept := by
      rw [← parquet.flatten_cut kept]
      exact List.mem_flatten.mpr ⟨rows, hrows, hx⟩
    have hplaced : x ∈ (placeGroups 0 file.rowGroups).flatten :=
      List.mem_flatten.mpr ⟨group, mem_of_mem_selectGroups hgroup,
        (filterGroup_sublist hkept).subset hxkept⟩
    rw [flatten_placeGroups] at hplaced
    exact List.mem_zipIdx_iff_getElem?.mp hplaced

/-- Every batch says where it comes from. -/
theorem source_of_mem_openStream
    (h : openStream parquet source projection qualFilter file = .ok items) {b : FileBatch τ}
    (hb : .ok b ∈ items) : b.source = source := by
  obtain ⟨roots, rows, -, rfl, -⟩ := exists_of_mem_openStream h hb
  rfl

end Stream

end ParquetAzureFdw
