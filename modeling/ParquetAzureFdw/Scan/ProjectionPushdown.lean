/-
# Projection pushdown

`get_foreign_plan` tells the scan which attributes the query reads: those that its target list and
its scan-level quals refer to (`build_projection_intlist`).  A scan of fewer columns goes through
the same blobs, batches and rows as a scan of all of them, call by call (`nextRow_reproject`), and
gives each row the same ctid.  Only the slots differ: an attribute that is neither projected nor a
partition column is NULL (`fillSlot_agrees`).

A reference to the whole row is attribute number zero.  It is dropped from the list along with the
system columns, and so does not add the attributes it denotes.  What the query reads is the same as
in a scan of all columns exactly when those attributes are there for another reason, or are NULL
anyway (`pushdown_agrees_iff`).
-/

import ParquetAzureFdw.Scan.Identity
import ParquetAzureFdw.Scan.Projection

namespace ParquetAzureFdw

open Runs

/-! ### The same scan with other columns -/

section Reproject

variable {τ : Type} (idxs : List ℕ) (slot : List (Option Datum))

/-- The batch that a reader returns when it is asked for the columns `idxs`. -/
def FileBatch.withRoots (b : FileBatch τ) : FileBatch τ := { b with roots := idxs }

/-- The stream with these columns. -/
def reprojectItems (items : List (Outcome (FileBatch τ))) : List (Outcome (FileBatch τ)) :=
  items.map (Except.map (FileBatch.withRoots idxs))

/-- The state of a scan with these columns, and with another slot. -/
def ScanState.reproject (s : ListScan τ) : ListScan τ :=
  { s with
    curStream := s.curStream.map (reprojectItems idxs)
    curBatch := s.curBatch.map (FileBatch.withRoots idxs)
    slot := slot }

def Iteration.reproject :
    Iteration (List (Outcome (FileBatch τ))) τ → Iteration (List (Outcome (FileBatch τ))) τ
  | .row batch i s => .row (batch.withRoots idxs) i (s.reproject idxs slot)
  | .again s => .again (s.reproject idxs slot)
  | .done s => .done (s.reproject idxs slot)

variable {idxs slot} {full : ScanConfig} {s t : ListScan τ}
  {openFull openProjected : String → Outcome (List (Outcome (FileBatch τ)))}

theorem ScanState.dropBatch_reproject (s : ListScan τ) :
    (s.reproject idxs slot).dropBatch = s.dropBatch.reproject idxs slot := by
  obtain ⟨_, _, batch⟩ := s
  cases batch <;> rfl

variable (hopen : ∀ blob items, openFull blob = .ok items →
  openProjected blob = .ok (reprojectItems idxs items))

/-- The configuration of the scan with the columns `idxs`. -/
def ScanConfig.withColumns (full : ScanConfig) (idxs : List ℕ) : ScanConfig :=
  { full with projection := some idxs, attnoMap := idxs }

/-- The configuration of the scan of all columns. -/
abbrev ScanConfig.allColumns (full : ScanConfig) : ScanConfig :=
  full.withColumns (List.range full.pgOids.length)

include hopen

theorem takeBlob_reproject {it : Iteration (List (Outcome (FileBatch τ))) τ}
    (h : takeBlob full openFull s = .ok it) :
    takeBlob (full.withColumns idxs) openProjected (s.reproject idxs slot) =
      .ok (it.reproject idxs slot) := by
  have henter : ∀ (s : ListScan τ) blob it, enterBlob openFull s blob = .ok it →
      enterBlob openProjected (s.reproject idxs slot) blob = .ok (it.reproject idxs slot) := by
    intro s blob it h
    obtain ⟨items, hitems, h⟩ := except_bind_eq_ok.mp h
    obtain rfl := Except.ok.inj h
    exact except_bind_eq_ok.mpr ⟨_, hopen blob.1 items hitems, rfl⟩
  unfold takeBlob at h ⊢
  have hranges : (s.reproject idxs slot).rangeProducer = s.rangeProducer := rfl
  rw [hranges]
  have hkeys : (full.withColumns idxs).partitionKeysDecl = full.partitionKeysDecl := rfl
  have hext : (full.withColumns idxs).ext = full.ext := rfl
  rw [hkeys, hext]
  generalize s.rangeProducer.nextBlob = next at h ⊢
  obtain ⟨blob, ranges⟩ := next
  cases blob with
  | none =>
    obtain rfl := Except.ok.inj h
    rfl
  | some blob =>
    dsimp only at h ⊢
    split_ifs at h ⊢ with hdecl
    · exact henter _ blob it h
    · cases hread : partitionDatums full.ext full.partitionKeysDecl blob.1 with
      | error f =>
        rw [hread] at h
        cases h
      | ok read =>
        rw [hread] at h
        cases read with
        | error notice =>
          obtain rfl := Except.ok.inj h
          rfl
        | ok datums => exact henter _ blob it h

theorem nextRowStep_reproject {it : Iteration (List (Outcome (FileBatch τ))) τ}
    (h : nextRowStep full openFull pullItem s = .ok it) :
    nextRowStep (full.withColumns idxs) openProjected pullItem (s.reproject idxs slot) =
      .ok (it.reproject idxs slot) := by
  have hfilter : (s.reproject idxs slot).curBatch.filter
      (fun b => (s.reproject idxs slot).curRow < b.batch.numRows) =
        (s.curBatch.filter fun b => s.curRow < b.batch.numRows).map (FileBatch.withRoots idxs) := by
    show (s.curBatch.map _).filter _ = _
    rw [Option.filter_map]
    rfl
  unfold nextRowStep at h ⊢
  rw [hfilter]
  generalize s.curBatch.filter (fun b => s.curRow < b.batch.numRows) = current at h ⊢
  cases current with
  | some b =>
    obtain rfl := Except.ok.inj h
    rfl
  | none =>
    dsimp only [Option.map_none] at h ⊢
    rw [ScanState.dropBatch_reproject]
    have hstream : (s.reproject idxs slot).curStream = s.curStream.map (reprojectItems idxs) := rfl
    rw [hstream]
    generalize s.curStream = stream at h ⊢
    cases stream with
    | none => exact takeBlob_reproject hopen h
    | some items =>
      cases items with
      | nil =>
        obtain rfl := Except.ok.inj h
        rfl
      | cons item items =>
        cases item with
        | error f => cases h
        | ok b =>
          obtain rfl := Except.ok.inj h
          rfl

/-- **The projected scan keeps step:** it returns the same row, with the other columns. -/
theorem nextRow_reproject {out : Option (FileBatch τ × ℕ)}
    (h : nextRow full openFull s = .ok (out, t)) :
    nextRow (full.withColumns idxs) openProjected (s.reproject idxs slot) =
      .ok (out.map (Prod.map (FileBatch.withRoots idxs) id), t.reproject idxs slot) := by
  induction s using nextRow.induct full openFull with
  | case1 s f hstep =>
    rw [nextRow_of_error hstep] at h
    cases h
  | case2 s batch row s' hstep =>
    obtain ⟨rfl, rfl⟩ := Prod.mk.inj (Except.ok.inj ((nextRow_of_row hstep).symm.trans h))
    exact nextRow_of_row (nextRowStep_reproject hopen hstep)
  | case3 s s' hstep =>
    obtain ⟨rfl, rfl⟩ := Prod.mk.inj (Except.ok.inj ((nextRow_of_done hstep).symm.trans h))
    exact nextRow_of_done (nextRowStep_reproject hopen hstep)
  | case4 s s' hstep ih =>
    rw [nextRow_of_again hstep] at h
    exact (nextRow_of_again (nextRowStep_reproject hopen hstep)).trans (ih h)

end Reproject

/-! ### The slots -/

/-- The partition columns are overlaid on the same attributes, whatever the slot was. -/
theorem overlayPartition_congr {attnos : List ℕ} {datums : List Datum} {slot slot' : List (Option Datum)}
    (hlength : slot.length = slot'.length) {a : ℕ}
    (ha : a ∈ attnos ∧ attnos.length = datums.length ∨ slot[a]? = slot'[a]?) :
    (overlayPartition attnos datums slot)[a]? = (overlayPartition attnos datums slot')[a]? := by
  induction attnos generalizing datums slot slot' with
  | nil => exact ha.resolve_left fun h => List.not_mem_nil h.1
  | cons b attnos ih =>
    cases datums with
    | nil => exact ha.resolve_left fun h => by simp at h
    | cons d datums =>
      refine ih (by simp [hlength]) ?_
      by_cases hab : b = a
      · right
        rw [List.getElem?_set, List.getElem?_set, hlength]
        simp [hab]
      · rw [List.getElem?_set_ne hab, List.getElem?_set_ne hab]
        refine ha.imp_left fun h => ⟨?_, by simpa using h.2⟩
        exact (List.mem_cons.mp h.1).resolve_left fun h => hab h.symm

theorem length_overlayPartition (attnos : List ℕ) (datums : List Datum) (slot : List (Option Datum)) :
    (overlayPartition attnos datums slot).length = slot.length := by
  induction attnos generalizing datums slot with
  | nil => rfl
  | cons b attnos ih =>
    cases datums with
    | nil => rfl
    | cons d datums => rw [overlayPartition, ih, List.length_set]

section Slots

variable {full : ScanConfig} {types : List DataType} {rows : List (TypedRow types)} {i : ℕ}
  {idxs : List ℕ} {slot slot' filled : List (Option Datum)} {datums : List Datum}

/-- The datum of an attribute, when the column of the file with its number is read for it. -/
def datumAt (full : ScanConfig) (rows : List (TypedRow types)) (i a : ℕ) : FdwResult (Option Datum) :=
  arrowValueToDatum full.ext (columnOfRows rows a) i (full.pgOids.getD a 0)

theorem datumAt_eq_none_iff {a : ℕ} {row : TypedRow types} {v : Option Datum}
    (hrow : rows[i]? = some row) (hv : datumAt full rows i a = .ok v) : v = none ↔ row.cell a = none := by
  rw [datumAt, arrowValueToDatum, columnOfRows_cell hrow] at hv
  cases hcell : row.cell a with
  | none =>
    rw [hcell] at hv
    exact iff_of_true (Except.ok.inj hv).symm rfl
  | some value =>
    rw [hcell] at hv
    cases hdatum : arrowToDatum full.ext (columnOfRows rows a).dataType (full.pgOids.getD a 0) value with
    | error e =>
      simp only [hdatum] at hv
      cases hv
    | ok d =>
      simp only [hdatum] at hv
      obtain rfl := Except.ok.inj hv
      simp

/-- A slot that was filled has read every column. -/
theorem datums_of_overlayColumns {cfg : ScanConfig} {roots attnos : List ℕ} {k : ℕ}
    (hroots : ∀ j a, attnos[j]? = some a → roots[k + j]? = some a)
    (h : overlayColumns cfg (RecordBatch.ofRows roots rows) i k attnos slot = .ok filled) :
    ∀ a ∈ attnos, ∃ v, datumAt cfg rows i a = .ok v := by
  induction attnos generalizing k slot with
  | nil => exact nofun
  | cons b attnos ih =>
    rw [overlayColumns] at h
    cases hoid : cfg.pgOids[b]? with
    | none =>
      rw [hoid] at h
      cases h
    | some oid =>
      have hcol : (RecordBatch.ofRows roots rows).columns[k]? = some (columnOfRows rows b) := by
        rw [RecordBatch.ofRows, List.getElem?_map, show roots[k]? = some b from hroots 0 b rfl]
        rfl
      rw [hoid] at h
      simp only [hcol] at h
      obtain ⟨v, hv, h⟩ := except_bind_eq_ok.mp h
      have hdatum : datumAt cfg rows i b = .ok v := by
        rw [datumAt, List.getD_eq_getElem?_getD, hoid]
        exact FdwResult.lift_eq_ok.mp hv
      rintro a (_ | ⟨_, ha⟩)
      · exact ⟨v, hdatum⟩
      · refine ih (fun j a hj => ?_) h a ha
        rw [show k + 1 + j = k + (j + 1) by omega]
        exact hroots (j + 1) a hj

/-- The slot that is filled from the columns `idxs`, when their datums are `v`. -/
theorem fillSlot_withColumns {v : ℕ → Option Datum}
    (hv : ∀ a ∈ idxs, a < full.pgOids.length ∧ datumAt full rows i a = .ok (v a)) :
    fillSlot (full.withColumns idxs) slot datums (RecordBatch.ofRows idxs rows) i =
      .ok (overlayPartition full.partitionAttnums datums (idxs.foldl (fun s a => s.set a (v a))
        (if idxs.length < full.pgOids.length then List.replicate full.pgOids.length none else slot))) := by
  refine except_bind_eq_ok.mpr ⟨_, overlayColumns_eq_ok _ fun j a hj => ?_, rfl⟩
  obtain ⟨hlt, hdatum⟩ := hv a (List.mem_of_getElem? hj)
  refine ⟨full.pgOids[a], columnOfRows rows a, List.getElem?_eq_getElem hlt, ?_, ?_⟩
  · rw [RecordBatch.ofRows, List.getElem?_map, Nat.zero_add, show idxs[j]? = some a from hj]
    rfl
  · rwa [datumAt, List.getD_eq_getElem?_getD, List.getElem?_eq_getElem hlt] at hdatum

/-- Where an attribute is missing, the slot is cleared first. -/
theorem length_lt_of_notMem (hascending : idxs.Pairwise (· < ·))
    (hidxs : ∀ a ∈ idxs, a < full.pgOids.length) {a : ℕ} (ha : a < full.pgOids.length)
    (hmem : a ∉ idxs) : idxs.length < full.pgOids.length := by
  have hnodup : (a :: idxs).Nodup := List.nodup_cons.mpr ⟨hmem, hascending.imp ne_of_lt⟩
  have hsubset : a :: idxs ⊆ List.range full.pgOids.length := by
    rintro b (_ | ⟨_, hb⟩)
    · exact List.mem_range.mpr ha
    · exact List.mem_range.mpr (hidxs b hb)
  have hle := (hnodup.subperm hsubset).length_le
  rwa [List.length_cons, List.length_range] at hle

/-- **The two slots of a row:** that of the projected scan is filled, too, and agrees with the full
one on an attribute exactly when it is projected, is a partition column, or is NULL in the file. -/
theorem fillSlot_agrees (hascending : idxs.Pairwise (· < ·)) (hidxs : ∀ a ∈ idxs, a < full.pgOids.length)
    (hslot : slot.length = full.pgOids.length) (hslot' : slot'.length = full.pgOids.length)
    (hdatums : full.partitionAttnums.length = datums.length) {row : TypedRow types}
    (hrow : rows[i]? = some row)
    (h : fillSlot full.allColumns slot datums
      (RecordBatch.ofRows (List.range full.pgOids.length) rows) i = .ok filled) :
    ∃ filled', fillSlot (full.withColumns idxs) slot' datums (RecordBatch.ofRows idxs rows) i =
        .ok filled' ∧ filled.length = full.pgOids.length ∧ filled'.length = full.pgOids.length ∧
      ∀ a < full.pgOids.length, filled'[a]? = filled[a]? ↔
        a ∈ full.partitionAttnums ∨ a ∈ idxs ∨ row.cell a = none := by
  obtain ⟨overlaid, hoverlaid, -⟩ := except_bind_eq_ok.mp h
  have hread : ∀ a, ∃ v, a < full.pgOids.length → datumAt full rows i a = .ok v := by
    intro a
    by_cases ha : a < full.pgOids.length
    · obtain ⟨v, hv⟩ := datums_of_overlayColumns
        (fun j b hj => by rw [Nat.zero_add]; exact hj) hoverlaid a (List.mem_range.mpr ha)
      exact ⟨v, fun _ => hv⟩
    · exact ⟨none, fun h => absurd h ha⟩
  choose v hv using hread
  have hall : ∀ a ∈ List.range full.pgOids.length,
      a < full.pgOids.length ∧ datumAt full rows i a = .ok (v a) :=
    fun a ha => ⟨List.mem_range.mp ha, hv a (List.mem_range.mp ha)⟩
  have hfull : fillSlot full.allColumns slot datums
      (RecordBatch.ofRows (List.range full.pgOids.length) rows) i = _ := fillSlot_withColumns hall
  rw [List.length_range, if_neg (lt_irrefl _)] at hfull
  obtain rfl := Except.ok.inj (hfull.symm.trans h)
  have hcleared : (if idxs.length < full.pgOids.length then
      List.replicate full.pgOids.length none else slot').length = full.pgOids.length := by
    split_ifs
    · exact List.length_replicate
    · exact hslot'
  refine ⟨_, fillSlot_withColumns fun a ha => ⟨hidxs a ha, hv a (hidxs a ha)⟩, ?_, ?_, fun a ha => ?_⟩
  · rw [length_overlayPartition, length_foldl_set, hslot]
  · rw [length_overlayPartition, length_foldl_set, hcleared]
  by_cases hpart : a ∈ full.partitionAttnums
  · refine iff_of_true (overlayPartition_congr ?_ (.inl ⟨hpart, hdatums⟩)) (.inl hpart)
    rw [length_foldl_set, length_foldl_set, hslot, hcleared]
  rw [overlayPartition_of_notMem hpart, overlayPartition_of_notMem hpart, foldl_set_getElem?,
    foldl_set_getElem?, hcleared, hslot, if_pos (And.intro (List.mem_range.mpr ha) ha)]
  by_cases hmem : a ∈ idxs
  · exact iff_of_true (if_pos ⟨hmem, ha⟩) (.inr (.inl hmem))
  · have hfewer := length_lt_of_notMem hascending hidxs ha hmem
    rw [if_neg fun h => hmem h.1, if_pos hfewer, List.getElem?_replicate, if_pos ha,
      or_iff_right hpart, or_iff_right hmem, ← datumAt_eq_none_iff hrow (hv a ha)]
    exact ⟨fun h => (Option.some.inj h).symm, fun h => by rw [h]⟩

end Slots

/-! ### One call of each scan -/

section Calls

variable {parquet : BatchCut} {full : ScanConfig} {fetch : String → FdwResult ParquetFile}
  {idxs : List ℕ} {s t : ListScan String}

/-- A stream of all columns, and the stream of some of them. -/
theorem openBlobOf_withColumns (hascending : idxs.Pairwise (· < ·))
    (hidxs : ∀ a ∈ idxs, a < full.pgOids.length) {blob : String}
    {items : List (Outcome (FileBatch String))}
    (h : openBlobOf parquet full.allColumns fetch blob = .ok items) :
    openBlobOf parquet (full.withColumns idxs) fetch blob = .ok (reprojectItems idxs items) ∧
      ∀ b, .ok b ∈ items → b.roots = List.range full.pgOids.length := by
  obtain ⟨file, hfile, h⟩ := except_bind_eq_ok.mp h
  have hroots : ∀ cols : List ℕ, cols.Pairwise (· < ·) → ∀ roots,
      projectedRoots file (some cols) = .ok roots → roots = cols := fun cols hcols roots =>
    projectionRoots_of_ascending hcols
  refine ⟨?_, fun b hb => ?_⟩
  · obtain ⟨roots, hfull, h⟩ := except_bind_eq_ok.mp h
    obtain ⟨preds, hpreds, h⟩ := except_bind_eq_ok.mp h
    have hrange : ∀ a < full.pgOids.length, a < file.types.length := fun a ha =>
      (projectionRoots_spec hfull).1 a (List.mem_range.mpr ha)
    have hprojected : projectedRoots file (some idxs) = .ok idxs := by
      have hok : projectedRoots file (some idxs) = .ok _ :=
        if_pos fun a ha => hrange a (hidxs a ha)
      rw [hok, hroots idxs hascending _ hok]
    refine except_bind_eq_ok.mpr ⟨file, hfile, except_bind_eq_ok.mpr ⟨idxs, hprojected,
      except_bind_eq_ok.mpr ⟨preds, hpreds, ?_⟩⟩⟩
    rw [← Except.ok.inj h, reprojectItems, List.map_flatMap]
    refine congrArg Except.ok (List.flatMap_congr fun group _ => ?_)
    unfold groupItems
    cases filterGroup preds group with
    | error f => rfl
    | ok kept =>
      dsimp only
      rw [List.map_map]
      rfl
  · obtain ⟨roots, rows, hfull, rfl, -⟩ := exists_of_mem_openStream h hb
    exact hroots _ List.pairwise_lt_range roots hfull

variable (full) in
/-- What holds of a scan of all columns at every point. -/
structure FullScan (s : ListScan String) : Prop where
  slot_length : s.slot.length = full.pgOids.length
  batch_roots : ∀ b, s.curBatch = some b → b.roots = List.range full.pgOids.length
  stream_roots : ∀ items, s.curStream = some items → ∀ b, .ok b ∈ items →
    b.roots = List.range full.pgOids.length
  datums : s.curBatch ≠ none ∨ s.curStream ≠ none →
    full.partitionAttnums.length = s.partitionDatumsForCurrentBlob.length
  unpartitioned : full.partitionKeysDecl.isEmpty = true → s.partitionDatumsForCurrentBlob = []

theorem FullScan.initial (blobs : List ListedBlob) :
    FullScan full (.initial blobs full.pgOids.length) where
  slot_length := List.length_replicate
  batch_roots := nofun
  stream_roots := nofun
  datums := nofun
  unpartitioned _ := rfl

theorem ScanState.dropBatch_curStream (s : ListScan String) : s.dropBatch.curStream = s.curStream := by
  unfold ScanState.dropBatch
  split_ifs <;> rfl

theorem FullScan.dropBatch (h : FullScan full s) : FullScan full s.dropBatch := by
  unfold ScanState.dropBatch
  split_ifs
  · exact ⟨h.slot_length, nofun, h.stream_roots, fun hsome => h.datums (.inr (hsome.resolve_left (· rfl))),
      h.unpartitioned⟩
  · exact h

/-- An iteration keeps it. -/
theorem FullScan.again (hkeys : full.partitionAttnums.length = full.partitionKeysDecl.length)
    (hopen : ∀ blob items, openBlobOf parquet full.allColumns fetch blob = .ok items →
      ∀ b, .ok b ∈ items → b.roots = List.range full.pgOids.length)
    (h : FullScan full s)
    (hit : Iterates full.allColumns (openBlobOf parquet full.allColumns fetch) pullItem s (.again t)) :
    FullScan full t := by
  have hdrop := h.dropBatch
  cases hit with
  | @pulled items rest b hbatch hstream hpull =>
    obtain rfl := pullItem_eq_batch hpull
    have hroots := h.stream_roots _ hstream
    refine ⟨hdrop.slot_length, fun b' hb' => ?_, fun items hitems b' hb' => ?_, fun _ => ?_,
      hdrop.unpartitioned⟩
    · exact Option.some.inj hb' ▸ hroots b List.mem_cons_self
    · exact hroots b' (List.mem_cons_of_mem _ (Option.some.inj hitems ▸ hb'))
    · refine hdrop.datums (.inr ?_)
      rw [ScanState.dropBatch_curStream, hstream]
      exact nofun
  | ended hbatch hstream hpull =>
    refine ⟨hdrop.slot_length, hdrop.batch_roots, nofun, fun hsome => ?_, hdrop.unpartitioned⟩
    exact hdrop.datums (.inl (hsome.resolve_right (· rfl)))
  | took hbatch hstream htakes =>
    cases htakes with
    | skipped hblob hskip =>
      exact ⟨hdrop.slot_length, hdrop.batch_roots, hdrop.stream_roots, hdrop.datums, hdrop.unpartitioned⟩
    | @entered blob datums items hblob hskip hdatums hopened =>
      have hdatums : full.DatumsFor blob.1 _ datums := hdatums
      have hempty : full.partitionKeysDecl.isEmpty = true → datums = [] := by
        intro hdecl
        rw [ScanConfig.DatumsFor, if_pos hdecl] at hdatums
        exact hdatums.trans (hdrop.unpartitioned hdecl)
      have hlength : full.partitionAttnums.length = datums.length := by
        by_cases hdecl : full.partitionKeysDecl.isEmpty = true
        · rw [hkeys, hempty hdecl, List.isEmpty_iff.mp hdecl]
          rfl
        · rw [ScanConfig.DatumsFor, if_neg hdecl] at hdatums
          exact hkeys.trans (partitionDatums_length hdatums).symm
      refine ⟨hdrop.slot_length, hdrop.batch_roots, fun items' hitems => ?_, fun _ => hlength, hempty⟩
      exact Option.some.inj hitems ▸ hopen _ _ hopened

/-- So does `next_row`, and the row it returns has all columns and the datums of its blob. -/
theorem FullScan.nextRow (hkeys : full.partitionAttnums.length = full.partitionKeysDecl.length)
    (hopen : ∀ blob items, openBlobOf parquet full.allColumns fetch blob = .ok items →
      ∀ b, .ok b ∈ items → b.roots = List.range full.pgOids.length)
    (h : FullScan full s) {out : Option (FileBatch String × ℕ)}
    (hnext : nextRow full.allColumns (openBlobOf parquet full.allColumns fetch) s = .ok (out, t)) :
    FullScan full t ∧ ∀ batch i, out = some (batch, i) →
      batch.roots = List.range full.pgOids.length ∧ i < batch.batch.numRows ∧
        full.partitionAttnums.length = t.partitionDatumsForCurrentBlob.length := by
  refine nextRow_induct _ _ (P := fun s r => FullScan full s → FullScan full r.2 ∧
    ∀ batch i, r.1 = some (batch, i) → batch.roots = List.range full.pgOids.length ∧
      i < batch.batch.numRows ∧
        full.partitionAttnums.length = r.2.partitionDatumsForCurrentBlob.length) ?_ ?_ ?_ hnext h
  · rintro s batch i t hit h
    cases hit with
    | row hbatch hrow =>
      refine ⟨⟨h.slot_length, h.batch_roots, h.stream_roots, h.datums, h.unpartitioned⟩, ?_⟩
      rintro batch' i' heq
      obtain ⟨rfl, rfl⟩ := Prod.mk.inj (Option.some.inj heq)
      exact ⟨h.batch_roots _ hbatch, hrow, h.datums (.inl (by simp [hbatch]))⟩
    | took _ _ htakes => cases htakes
  · rintro s t hit h
    cases hit with
    | took _ _ htakes =>
      cases htakes with
      | exhausted => exact ⟨h.dropBatch, nofun⟩
  · exact fun s t r hit ih h => ih (h.again hkeys hopen hit)

/-- What the two scans do with one row: it has the same ctid, and its slots agree on an attribute
exactly when it is projected, is a partition column, or is NULL in the file. -/
structure SameRow (full : ScanConfig) (idxs : List ℕ) (e e' : Emission String) : Prop where
  ctid : e'.ctid = e.ctid
  batch : e'.batch = e.batch.withRoots idxs
  row : e'.row = e.row
  agree_iff : ∀ a < full.pgOids.length, e'.slot[a]? = e.slot[a]? ↔
    a ∈ full.partitionAttnums ∨ a ∈ idxs ∨
      ∀ x, e.batch.rows[e.row]? = some x → x.1.cell a = none

/-- **One call of each scan.** -/
theorem iterate_withColumns (hkeys : full.partitionAttnums.length = full.partitionKeysDecl.length)
    (hascending : idxs.Pairwise (· < ·)) (hidxs : ∀ a ∈ idxs, a < full.pgOids.length)
    (h : FullScan full s) {slot' : List (Option Datum)} (hslot' : slot'.length = full.pgOids.length)
    {out : Option (Emission String)}
    (hcall : iterateForeignScan full.allColumns
      (openBlobOf parquet full.allColumns fetch) s = .ok (out, t)) :
    FullScan full t ∧ ∃ out' slot'', slot''.length = full.pgOids.length ∧
      iterateForeignScan (full.withColumns idxs) (openBlobOf parquet (full.withColumns idxs) fetch)
        (s.reproject idxs slot') = .ok (out', t.reproject idxs slot'') ∧
      Option.Rel (SameRow full idxs) out out' := by
  have hopen : ∀ blob items, openBlobOf parquet full.allColumns fetch blob = .ok items → _ :=
    fun blob items => openBlobOf_withColumns hascending hidxs
  obtain ⟨⟨next, u⟩, hnext, hcall⟩ := except_bind_eq_ok.mp hcall
  have hnext' : nextRow (full.allColumns.withColumns idxs) _ (s.reproject idxs slot') = _ :=
    nextRow_reproject (fun blob items hitems => (hopen blob items hitems).1) hnext
  obtain ⟨hu, hreturned⟩ := h.nextRow hkeys (fun blob items hitems => (hopen blob items hitems).2) hnext
  cases next with
  | none =>
    obtain ⟨rfl, rfl⟩ := Prod.mk.inj (Except.ok.inj hcall)
    exact ⟨hu, none, slot', hslot', except_bind_eq_ok.mpr ⟨_, hnext', rfl⟩, .none⟩
  | some next =>
    obtain ⟨batch, i⟩ := next
    obtain ⟨hroots, hi, hdatums⟩ := hreturned batch i rfl
    obtain ⟨⟨e, u'⟩, hstamp, hcall⟩ := except_bind_eq_ok.mp hcall
    obtain ⟨rfl, rfl⟩ := Prod.mk.inj (Except.ok.inj hcall)
    obtain ⟨table, slot, htable, hfill, rfl, rfl⟩ := stampRow_eq_ok hstamp
    obtain ⟨source, types, roots, rows⟩ := batch
    dsimp only at hroots
    subst hroots
    have hi : i < rows.length := by simpa [FileBatch.batch, RecordBatch.ofRows] using hi
    have hrow : (rows.map Prod.fst)[i]? = some rows[i].1 := by simp [hi]
    obtain ⟨slot'', hfill', hlength, hlength', hagree⟩ :=
      fillSlot_agrees hascending hidxs hu.slot_length hslot' hdatums hrow hfill
    refine ⟨⟨hlength, hu.batch_roots, hu.stream_roots, hu.datums, hu.unpartitioned⟩,
      some ⟨_, slot'', _, i⟩, slot'', hlength', ?_, .some ⟨rfl, rfl, rfl, fun a ha => ?_⟩⟩
    · refine iterateForeignScan_of_row hnext' ?_
      exact except_bind_eq_ok.mpr ⟨table, htable, except_bind_eq_ok.mpr ⟨slot'', hfill', rfl⟩⟩
    · rw [hagree a ha]
      simp [List.getElem?_eq_getElem hi]

end Calls

/-! ### What the query reads -/

section Query

variable {natts : ℕ}

/-- The attributes that the references of a query denote, counted from zero.  A whole-row reference
denotes them all. -/
def AttnumSet.Denotes (refs : AttnumSet natts) (a : ℕ) : Prop :=
  (a : ℤ) + 1 ∈ refs.members ∨ 0 ∈ refs.members ∧ a < natts

theorem AttnumSet.Denotes.lt {refs : AttnumSet natts} {a : ℕ} (h : refs.Denotes a) : a < natts := by
  rcases h with h | h
  · have := refs.le_natts _ h
    omega
  · exact h.2

/-- References to system columns and whole rows alone leave no column to project. -/
theorem AttnumSet.filter_members_eq_nil (refs : AttnumSet natts)
    (hnone : ∀ r ∈ refs.members, r < 1) : refs.members.filter (1 ≤ ·) = [] := by
  refine List.filter_eq_nil_iff.mpr fun r hr => ?_
  have hr := hnone r hr
  simp only [decide_eq_true_eq]
  omega

/-- The columns of a plan: those that are referred to, or the first one if none is. -/
theorem mem_indices_iff {refs : AttnumSet natts} {a : ℕ} :
    a ∈ (PlannedProjection.select refs).indices ↔
      (a : ℤ) + 1 ∈ refs.members ∨ a = 0 ∧ ∀ r ∈ refs.members, r < 1 := by
  have hmem : a ∈ (PlannedProjection.select refs).indices ↔
      ∃ r ∈ buildProjectionIntlist refs, (r - 1).toNat = a := List.mem_map
  rw [hmem, buildProjectionIntlist]
  by_cases hnone : ∀ r ∈ refs.members, r < 1
  · have hempty := refs.filter_members_eq_nil hnone
    have hnot : (a : ℤ) + 1 ∉ refs.members := fun h => by
      have := hnone _ h
      omega
    simp only [hempty, List.isEmpty_nil, if_true, List.mem_singleton, exists_eq_left]
    constructor
    · exact fun h => .inr ⟨by omega, hnone⟩
    · rintro (h | ⟨rfl, -⟩)
      · exact absurd h hnot
      · rfl
  · obtain ⟨r₀, hr₀, hpos⟩ : ∃ r ∈ refs.members, 1 ≤ r := by
      simpa using hnone
    have hne : (refs.members.filter (1 ≤ ·)).isEmpty = false := by
      rw [List.isEmpty_eq_false_iff]
      exact List.ne_nil_of_mem (List.mem_filter.mpr ⟨hr₀, by simpa using hpos⟩)
    simp only [hne, Bool.false_eq_true, if_false, List.mem_filter, decide_eq_true_eq]
    constructor
    · rintro ⟨r, ⟨hr, hr1⟩, rfl⟩
      refine .inl ?_
      rwa [Int.toNat_of_nonneg (by omega), Int.sub_add_cancel]
    · rintro (h | h)
      · exact ⟨_, ⟨h, by omega⟩, by omega⟩
      · exact absurd h.2 hnone

/-- The calls of a scan, by what they hand to the executor. -/
abbrev CallRun (parquet : BatchCut) (cfg : ScanConfig) (fetch : String → FdwResult ParquetFile)
    (blobs : List ListedBlob) (natts : ℕ) (outs : List (Option (Emission String)))
    (s : ListScan String) : Prop :=
  Run (fun s out t => iterateForeignScan cfg (openBlobOf parquet cfg fetch) s = .ok (out, t))
    (.initial blobs natts) outs s

/-- Two tuples are the same for a query: the same row of the same blob, with the same ctid, and the
same values in the attributes that the query refers to. -/
structure ReadsSame (refs : AttnumSet natts) (e e' : Emission String) : Prop where
  ctid : e'.ctid = e.ctid
  blob : e'.batch.source = e.batch.source
  position : e'.position = e.position
  slot : ∀ a, refs.Denotes a → e'.slot[a]? = e.slot[a]?

variable {parquet : BatchCut} {ext : Externals} {fetch : String → FdwResult ParquetFile}
  {attrs : List Attribute} {opts : PartitionOptions} {qualFilter : Option (List PushedExpr)}
  {full : ScanConfig} {blobs : List ListedBlob} {outs : List (Option (Emission String))}
  {s : ListScan String}

/-- What is built for a scan of all columns. -/
theorem buildScanConfig_all (h : buildScanConfig ext attrs opts qualFilter none = .ok full) :
    full = full.allColumns ∧ full.pgOids.length = attrs.length ∧
      full.partitionAttnums.length = full.partitionKeysDecl.length ∧
      ∀ fdwPrivate, buildScanConfig ext attrs opts qualFilter fdwPrivate =
        (projectedColumns attrs.length fdwPrivate).map full.withColumns := by
  obtain ⟨oids, hoids, h⟩ := except_bind_eq_ok.mp h
  obtain ⟨attnums, hattnums, h⟩ := except_bind_eq_ok.mp h
  obtain ⟨idxs, hidxs, h⟩ := except_bind_eq_ok.mp h
  obtain rfl := Except.ok.inj h
  obtain rfl := Except.ok.inj hidxs
  have hlength : oids.length = attrs.length := by rw [attributeOids_eq hoids, List.length_map]
  refine ⟨rfl, hlength, ?_, fun fdwPrivate => ?_⟩
  · exact (mapM_eq_ok_iff.mp hattnums).length_eq.symm.trans opts.agree.length_eq
  · rw [buildScanConfig, hoids]
    show (resolvePartitionAttnums attrs opts.columns >>= _) = _
    rw [hattnums]
    show (projectedColumns oids.length fdwPrivate >>= _) = _
    rw [hlength]
    cases projectedColumns attrs.length fdwPrivate <;> rfl

/-- The projected scan has a run for each run of the scan of all columns, with the same rows. -/
theorem exists_projected_run (hkeys : full.partitionAttnums.length = full.partitionKeysDecl.length)
    {idxs : List ℕ} (hascending : idxs.Pairwise (· < ·)) (hidxs : ∀ a ∈ idxs, a < full.pgOids.length)
    (run : CallRun parquet full.allColumns fetch blobs full.pgOids.length outs s) :
    ∃ outs' s', CallRun parquet (full.withColumns idxs) fetch blobs full.pgOids.length outs' s' ∧
      List.Forall₂ (Option.Rel (SameRow full idxs)) outs outs' := by
  let related : ListScan String → ListScan String → Prop := fun s t =>
    FullScan full s ∧ ∃ slot', slot'.length = full.pgOids.length ∧ t = s.reproject idxs slot'
  have hinit : related (.initial blobs full.pgOids.length) (.initial blobs full.pgOids.length) :=
    ⟨.initial blobs, _, List.length_replicate, rfl⟩
  have hstep : ∀ s t out s', related s t →
      iterateForeignScan full.allColumns (openBlobOf parquet full.allColumns fetch) s = .ok (out, s') →
      ∃ out' t', iterateForeignScan (full.withColumns idxs)
          (openBlobOf parquet (full.withColumns idxs) fetch) t = .ok (out', t') ∧
        Option.Rel (SameRow full idxs) out out' ∧ related s' t' := by
    rintro s t out s' ⟨hs, slot', hslot', rfl⟩ hcall
    obtain ⟨hs', out', slot'', hslot'', hcall', hout⟩ :=
      iterate_withColumns hkeys hascending hidxs hs hslot' hcall
    exact ⟨out', _, hcall', hout, hs', slot'', hslot'', rfl⟩
  obtain ⟨outs', s', run', houts, -⟩ := run.simulate hinit hstep
  exact ⟨outs', s', run', houts⟩

/-- Rows that are the same for a query. -/
theorem SameRow.readsSame_iff {refs : AttnumSet natts} (hnatts : full.pgOids.length = natts)
    {e e' : Emission String} (h : SameRow full (PlannedProjection.select refs).indices e e') :
    ReadsSame refs e e' ↔ (0 ∈ refs.members → ∀ a < natts, (a : ℤ) + 1 ∈ refs.members ∨
      a ∈ full.partitionAttnums ∨ (a = 0 ∧ ∀ r ∈ refs.members, r < 1) ∨
        ∀ x, e.batch.rows[e.row]? = some x → x.1.cell a = none) := by
  have hagree : ∀ a < natts, e'.slot[a]? = e.slot[a]? ↔ (a : ℤ) + 1 ∈ refs.members ∨
      a ∈ full.partitionAttnums ∨ (a = 0 ∧ ∀ r ∈ refs.members, r < 1) ∨
        ∀ x, e.batch.rows[e.row]? = some x → x.1.cell a = none := by
    intro a ha
    rw [h.agree_iff a (hnatts ▸ ha), mem_indices_iff, or_assoc, or_left_comm]
  constructor
  · exact fun hsame hwhole a ha => (hagree a ha).mp (hsame.slot a (.inr ⟨hwhole, ha⟩))
  · intro hcondition
    refine ⟨h.ctid, by rw [h.batch]; rfl, by rw [Emission.position, h.batch, h.row]; rfl, fun a ha => ?_⟩
    refine (hagree a ha.lt).mpr ?_
    rcases ha with ha | ⟨hwhole, hlt⟩
    · exact .inl ha
    · exact hcondition hwhole a hlt

/-- Runs that hand out the same rows are the same for a query when each of their rows is. -/
theorem forall₂_readsSame_iff {refs : AttnumSet natts} (hnatts : full.pgOids.length = natts)
    {outs' : List (Option (Emission String))}
    (houts : List.Forall₂ (Option.Rel (SameRow full (PlannedProjection.select refs).indices))
      outs outs') :
    List.Forall₂ (Option.Rel (ReadsSame refs)) outs outs' ↔
      (0 ∈ refs.members → ∀ e, some e ∈ outs → ∀ a < natts, (a : ℤ) + 1 ∈ refs.members ∨
        a ∈ full.partitionAttnums ∨ (a = 0 ∧ ∀ r ∈ refs.members, r < 1) ∨
          ∀ x, e.batch.rows[e.row]? = some x → x.1.cell a = none) := by
  constructor
  · intro h hwhole e he
    obtain ⟨k, hk⟩ := List.getElem?_of_mem he
    obtain ⟨out', hout', hrow⟩ := forall₂_getElem? houts hk
    obtain ⟨out'', hout'', hreads⟩ := forall₂_getElem? h hk
    obtain rfl := Option.some.inj (hout'.symm.trans hout'')
    cases hrow with
    | some hrow =>
      cases hreads with
      | some hreads => exact (hrow.readsSame_iff hnatts).mp hreads hwhole
  · intro h
    refine ((List.forall₂_and_left _ _).mpr ⟨fun out hout => hout, houts⟩).imp ?_
    rintro out out' ⟨hout, hrow⟩
    cases hrow with
    | none => exact .none
    | some hrow => exact .some ((hrow.readsSame_iff hnatts).mpr fun hwhole => h hwhole _ hout)

/-- **Projection pushdown changes no result exactly when** the relation has a column and a query
that refers to the whole row finds the other attributes there for another reason: each of them is
referred to by itself, is a partition column, is the first one and stands in for a query that refers
to no column, or is NULL in the rows that are read. -/
theorem pushdown_agrees_iff (refs : AttnumSet attrs.length)
    (hfull : buildScanConfig ext attrs opts qualFilter none = .ok full)
    (run : CallRun parquet full fetch blobs attrs.length outs s) :
    (∃ cfg outs' s', buildScanConfig ext attrs opts qualFilter (some (buildProjectionIntlist refs)) =
        .ok cfg ∧ CallRun parquet cfg fetch blobs attrs.length outs' s' ∧
        List.Forall₂ (Option.Rel (ReadsSame refs)) outs outs') ↔
      attrs ≠ [] ∧ (0 ∈ refs.members → ∀ e, some e ∈ outs → ∀ a < attrs.length,
        (a : ℤ) + 1 ∈ refs.members ∨ a ∈ full.partitionAttnums ∨
          (a = 0 ∧ ∀ r ∈ refs.members, r < 1) ∨
          ∀ x, e.batch.rows[e.row]? = some x → x.1.cell a = none) := by
  obtain ⟨hall, hnatts, hkeys, hbuild⟩ := buildScanConfig_all hfull
  rw [hbuild]
  by_cases hempty : attrs = []
  · -- the fallback to the first column finds none
    subst hempty
    have hnone := refs.filter_members_eq_nil fun r hr => Int.lt_add_one_of_le (refs.le_natts r hr)
    have hfallback : buildProjectionIntlist refs = [1] := by simp [buildProjectionIntlist, hnone]
    refine iff_of_false ?_ (fun h => h.1 rfl)
    rintro ⟨cfg, outs', s', hcfg, -⟩
    rw [hfallback] at hcfg
    cases hcfg
  · have hpos : 0 < attrs.length := List.length_pos_iff.mpr hempty
    let plan := PlannedProjection.select refs
    have hcolumns : projectedColumns attrs.length (some (buildProjectionIntlist refs)) =
        .ok plan.indices := projectedColumns_planned plan hpos
    have hidxs : ∀ a ∈ plan.indices, a < full.pgOids.length := by
      intro a ha
      obtain ⟨r, hr, rfl⟩ := List.mem_map.mp ha
      have := plan.attnums_bounds hpos r hr
      omega
    rw [hall, ← hnatts] at run
    obtain ⟨outs₁, s₁, run₁, houts₁⟩ :=
      exists_projected_run hkeys (plan.indices_ascending hpos) hidxs run
    rw [CallRun, hnatts] at run₁
    have hunique : ∀ outs' s', CallRun parquet (full.withColumns plan.indices) fetch blobs
        attrs.length outs' s' → outs'.length = outs.length → outs' = outs₁ := by
      intro outs' s' run' hlength
      refine (run'.unique (fun s l l' t t' h h' => ?_) run₁ ?_).1
      · exact Prod.mk.inj (Except.ok.inj (h.symm.trans h'))
      · rw [hlength, houts₁.length_eq]
    have hsame := forall₂_readsSame_iff hnatts houts₁
    rw [hcolumns, ← hsame, and_iff_right hempty]
    constructor
    · rintro ⟨cfg, outs', s', hcfg, run', houts'⟩
      obtain rfl := Except.ok.inj hcfg
      rwa [← hunique outs' s' run' houts'.length_eq.symm]
    · exact fun h => ⟨_, outs₁, s₁, rfl, run₁, h⟩

end Query

/-! ### A table of two columns -/

/-- The relation `(id int4, x int4)`. -/
def idXAttributes : List Attribute := [int4Column "id", int4Column "x"]

theorem agree_without_partitions : List.Forall₂ (fun (col : String) (key : String × PgPartitionType) =>
    eqIgnoreAsciiCase col.toList key.1.toList = true) [] [] := .nil

def withoutPartitions : PartitionOptions := ⟨[], [], agree_without_partitions⟩

/-- The references of `SELECT ctid, id FROM t`, and of `SELECT t FROM t`. -/
def ctidAndId : AttnumSet idXAttributes.length := ⟨[-1, 1], by decide, by decide⟩

def wholeRow : AttnumSet idXAttributes.length := ⟨[0], by decide, by decide⟩

theorem buildScanConfig_id_x (fdwPrivate : Option (List ℤ)) :
    buildScanConfig .permissive idXAttributes withoutPartitions none fdwPrivate =
      (projectedColumns 2 fdwPrivate).map (pairScan none []).withColumns := by
  show (projectedColumns 2 fdwPrivate >>= _) = _
  cases projectedColumns 2 fdwPrivate <;> rfl

/-- The first call, on a blob with the row `(7, 8)`. -/
theorem first_call_of_pairs (idxs : List ℕ) (hidxs : idxs = [0, 1] ∨ idxs = [0]) : ∃ e s,
    CallRun oneBatch ((pairScan none []).withColumns idxs) (fun _ => .ok (pairFile [(7, 8)]))
      [("a", "e1")] 2 [some e] s ∧
    e.slot = [some (.int4 7), if idxs = [0] then none else some (.int4 8)] := by
  -- the blob is opened, its batch is taken, and its row is handed out
  rcases hidxs with rfl | rfl <;>
    exact ⟨_, _, Run.nil.snoc (iterateForeignScan_of_row ((nextRow_of_again rfl).trans
      ((nextRow_of_again rfl).trans (nextRow_of_row rfl))) rfl), rfl⟩

/-- A query of `ctid` and `id` reads what a scan of both columns would give it. -/
theorem ctid_and_id_read_same : ∃ e s cfg outs' s',
    CallRun oneBatch (pairScan none []) (fun _ => .ok (pairFile [(7, 8)])) [("a", "e1")] 2 [some e] s ∧
    buildScanConfig .permissive idXAttributes withoutPartitions none
      (some (buildProjectionIntlist ctidAndId)) = .ok cfg ∧
    CallRun oneBatch cfg (fun _ => .ok (pairFile [(7, 8)])) [("a", "e1")] 2 outs' s' ∧
    List.Forall₂ (Option.Rel (ReadsSame ctidAndId)) [some e] outs' := by
  obtain ⟨e, s, run, -⟩ := first_call_of_pairs [0, 1] (.inl rfl)
  obtain ⟨cfg, outs', s', hcfg, run', houts⟩ :=
    (pushdown_agrees_iff ctidAndId (buildScanConfig_id_x none) run).mpr
      ⟨by decide, fun h => absurd h (by decide)⟩
  exact ⟨e, s, cfg, outs', s', run, hcfg, run', houts⟩

/-- **A query of the whole row reads NULL.**  `SELECT t FROM t` refers to attribute number zero
alone, so that only the first column is projected, and `x` comes back as NULL instead of 8. -/
theorem whole_row_reads_null : ∃ e s cfg e' s',
    buildScanConfig .permissive idXAttributes withoutPartitions none none = .ok (pairScan none []) ∧
    CallRun oneBatch (pairScan none []) (fun _ => .ok (pairFile [(7, 8)])) [("a", "e1")] 2 [some e] s ∧
    buildScanConfig .permissive idXAttributes withoutPartitions none
      (some (buildProjectionIntlist wholeRow)) = .ok cfg ∧
    CallRun oneBatch cfg (fun _ => .ok (pairFile [(7, 8)])) [("a", "e1")] 2 [some e'] s' ∧
    e.slot = [some (.int4 7), some (.int4 8)] ∧ e'.slot = [some (.int4 7), none] ∧
    ¬ ReadsSame wholeRow e e' := by
  obtain ⟨e, s, run, hslot⟩ := first_call_of_pairs [0, 1] (.inl rfl)
  obtain ⟨e', s', run', hslot'⟩ := first_call_of_pairs [0] (.inr rfl)
  refine ⟨e, s, _, e', s', buildScanConfig_id_x none, run, buildScanConfig_id_x _, run', hslot, hslot',
    fun h => ?_⟩
  have hx := h.slot 1 (.inr ⟨by decide, by decide⟩)
  rw [hslot, hslot'] at hx
  cases hx

end ParquetAzureFdw
