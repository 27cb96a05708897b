/-
# The rows of a scan, and of a scan started again

`next_row` goes through three nested loops, over blobs, batches and rows, that share the fields of
the state; `re_scan_foreign_scan` resets most of them, and leaves the partition datums and the slot.
What a state has still to return is written down once (`ScanState.upcoming`): the rows left of the
batch, the batches left of the stream, and the blobs left of the list, each row with the
datums of its blob and its number in it.  An iteration that returns no row keeps that
sequence, one that returns a row takes its first element (`nextRow_cases`), and after
`reScanForeignScan` it is the whole table again, whatever the state was (`upcoming_reScan`).
-/

import Mathlib.Data.List.Intervals
import ParquetAzureFdw.Scan.Identity

namespace ParquetAzureFdw

section Sequence

variable {τ : Type} (cfg : ScanConfig) (contents : String → List (FileBatch τ))

/-- A row that `next_row` has returned, with the state's datums and counter at that point. -/
structure ScannedRow (τ : Type) where
  batch : FileBatch τ
  row : ℕ
  partitionDatums : List Datum
  rowInBlob : ℕ

/-- The rows of a batch from row `k` on. -/
def FileBatch.rowsFrom (b : FileBatch τ) (k : ℕ) : List (FileBatch τ × ℕ) :=
  (List.Ico k b.batch.numRows).map fun row => (b, row)

/-- Rows of one blob, numbered from `first`. -/
def numberRows (datums : List Datum) (first : ℕ) (rows : List (FileBatch τ × ℕ)) :
    List (ScannedRow τ) :=
  (rows.zipIdx first).map fun r => ⟨r.1.1, r.1.2, datums, r.2⟩

/-- The partition datums of a blob: those its path carries. -/
def ScanConfig.datumsOf (blob : String) : List Datum :=
  if cfg.partitionKeysDecl.isEmpty then []
  else match partitionDatums cfg.ext cfg.partitionKeysDecl blob with
    | .ok (.ok datums) => datums
    | _ => []

/-- The rows of a blob, as a scan returns them; none when its path is bad. -/
def blobSequence (blob : ListedBlob) : List (ScannedRow τ) :=
  if cfg.skips blob.1 then []
  else numberRows (cfg.datumsOf blob.1) 0 ((contents blob.1).flatMap fun b => b.rowsFrom 0)

/-- The rows of a list of blobs. -/
def tableSequence (blobs : List ListedBlob) : List (ScannedRow τ) :=
  blobs.flatMap (blobSequence cfg contents)

/-- The rows of the batches left of a stream. -/
def itemRows : List (Outcome (FileBatch τ)) → List (FileBatch τ × ℕ)
  | .ok b :: items => b.rowsFrom 0 ++ itemRows items
  | _ => []

/-- The rows left of the current blob. -/
def ScanState.rowsLeft (s : ListScan τ) : List (FileBatch τ × ℕ) :=
  (s.curBatch.elim [] fun b => b.rowsFrom s.curRow) ++ s.curStream.elim [] itemRows

/-- What the scan has still to return. -/
def ScanState.upcoming (s : ListScan τ) : List (ScannedRow τ) :=
  numberRows s.partitionDatumsForCurrentBlob s.curRowInBlob s.rowsLeft ++
    tableSequence cfg contents (s.rangeProducer.blobs.drop s.rangeProducer.cursor)

/-- `re_scan_foreign_scan`, with the list of blobs of the state. -/
def reScanForeignScan (blobs : List ListedBlob) (s : ListScan τ) : ListScan τ :=
  { s with
    curStream := none
    curBatch := none
    curRow := 0
    blobIdTable := []
    curBlobBaseId := 0
    curRowInBlob := 0
    rangeProducer := ⟨blobs, 0⟩ }

/-- What `iterate_foreign_scan` does to the state with a row: it counts it, registers chunks and
fills the slot. -/
def ScanState.bookkeep (s : ListScan τ) (table : List BlobIdEntry) (slot : List (Option Datum)) :
    ListScan τ :=
  { s with blobIdTable := table, slot := slot, curRowInBlob := s.curRowInBlob + 1 }

variable (openBlob : String → Outcome (List (Outcome (FileBatch τ))))

/-- One call of the executor, as far as `next_row` is concerned: the row it returns, if any, is
counted; nothing is said of the table of blob ids and of the slot. -/
inductive ScanCall : ListScan τ → Option (ScannedRow τ) → ListScan τ → Prop
  | row {s t : ListScan τ} {batch : FileBatch τ} {row : ℕ} {table : List BlobIdEntry}
      {slot : List (Option Datum)} (hnext : nextRow cfg openBlob s = .ok (some (batch, row), t)) :
      ScanCall s (some ⟨batch, row, t.partitionDatumsForCurrentBlob, t.curRowInBlob⟩)
        (t.bookkeep table slot)
  | ended {s t : ListScan τ} (hnext : nextRow cfg openBlob s = .ok (none, t)) : ScanCall s none t

/-- One thing that is done with a scan: a call, or a rescan. -/
inductive ScanStep (blobs : List ListedBlob) : ListScan τ → Option (Option (ScannedRow τ)) →
    ListScan τ → Prop
  | call {s s' : ListScan τ} {out : Option (ScannedRow τ)} (h : ScanCall cfg openBlob s out s') :
      ScanStep blobs s (some out) s'
  | rescan {s : ListScan τ} : ScanStep blobs s none (reScanForeignScan blobs s)

/-- The blobs that are not skipped can be read, and hold the batches of `contents`. -/
def BlobsReadable (blobs : List ListedBlob) : Prop :=
  ∀ blob ∈ blobs, cfg.skips blob.1 = false → openBlob blob.1 = .ok ((contents blob.1).map .ok)

/-- What holds of a scan of `blobs` at every point. -/
structure ScanSound (blobs : List ListedBlob) (s : ListScan τ) : Prop where
  blobs_eq : s.rangeProducer.blobs = blobs
  stream : ∀ items, s.curStream = some items → ∃ batches : List (FileBatch τ), items = batches.map .ok
  fresh : s.curBatch = none → s.curRow = 0
  unpartitioned : cfg.partitionKeysDecl.isEmpty = true → s.partitionDatumsForCurrentBlob = []

variable {cfg contents openBlob} {blobs : List ListedBlob} {s s' : ListScan τ}

theorem FileBatch.rowsFrom_of_lt {b : FileBatch τ} {k : ℕ} (h : k < b.batch.numRows) :
    b.rowsFrom k = (b, k) :: b.rowsFrom (k + 1) := by
  rw [rowsFrom, List.Ico.eq_cons h, List.map_cons, rowsFrom]

theorem FileBatch.rowsFrom_of_le {b : FileBatch τ} {k : ℕ} (h : b.batch.numRows ≤ k) :
    b.rowsFrom k = [] := by
  rw [rowsFrom, List.Ico.eq_nil_of_le h, List.map_nil]

theorem itemRows_map_ok (batches : List (FileBatch τ)) :
    itemRows (batches.map .ok) = batches.flatMap fun b => b.rowsFrom 0 := by
  induction batches with
  | nil => rfl
  | cons b batches ih => rw [List.map_cons, itemRows, ih, List.flatMap_cons]

theorem numberRows_nil (datums : List Datum) (first : ℕ) :
    numberRows datums first ([] : List (FileBatch τ × ℕ)) = [] := rfl

theorem numberRows_cons (datums : List Datum) (first : ℕ) (r : FileBatch τ × ℕ)
    (rows : List (FileBatch τ × ℕ)) : numberRows datums first (r :: rows) =
      ⟨r.1, r.2, datums, first⟩ :: numberRows datums (first + 1) rows := rfl

/-- What is made of the rows of a blob does not depend on their numbers. -/
theorem map_numberRows {β : Type} (f : List Datum → FileBatch τ → ℕ → β) (datums : List Datum)
    (first : ℕ) (rows : List (FileBatch τ × ℕ)) :
    (numberRows datums first rows).map (fun r => f r.partitionDatums r.batch r.row) =
      rows.map fun r => f datums r.1 r.2 := by
  induction rows generalizing first with
  | nil => rfl
  | cons r rows ih => rw [numberRows_cons, List.map_cons, ih, List.map_cons]

/-- What is made of the rows that a scan returns of a blob. -/
theorem map_blobSequence {β : Type} (f : List Datum → FileBatch τ → ℕ → β) (blob : ListedBlob) :
    (blobSequence cfg contents blob).map (fun r => f r.partitionDatums r.batch r.row) =
      if cfg.skips blob.1 then []
      else (contents blob.1).flatMap fun b =>
        (List.range b.batch.numRows).map (f (cfg.datumsOf blob.1) b) := by
  rw [blobSequence]
  split_ifs
  · rfl
  · rw [map_numberRows, List.map_flatMap]
    refine List.flatMap_congr fun b _ => ?_
    rw [FileBatch.rowsFrom, List.map_map, List.Ico.zero_bot]
    rfl

/-- A batch that is done leaves the rows of the stream. -/
theorem ScanState.rowsLeft_of_done (h : s.BatchDone) :
    s.rowsLeft = s.curStream.elim [] itemRows := by
  rw [rowsLeft]
  cases hbatch : s.curBatch with
  | none => rfl
  | some b => rw [Option.elim_some, FileBatch.rowsFrom_of_le (h b hbatch), List.nil_append]

/-- The datums of a blob that is entered. -/
theorem ScanSound.datumsOf_eq (h : ScanSound cfg blobs s) {blob : String} {datums : List Datum}
    (hdatums : cfg.DatumsFor blob s.partitionDatumsForCurrentBlob datums) :
    datums = cfg.datumsOf blob := by
  unfold ScanConfig.DatumsFor at hdatums
  unfold ScanConfig.datumsOf
  by_cases hdecl : cfg.partitionKeysDecl.isEmpty = true
  · rw [if_pos hdecl] at hdatums ⊢
    exact hdatums.trans (h.unpartitioned hdecl)
  · rw [if_neg hdecl] at hdatums ⊢
    rw [hdatums]

/-- The first of the blobs left. -/
theorem tableSequence_drop {cursor : ℕ} {blob : ListedBlob} (h : blobs[cursor]? = some blob) :
    tableSequence cfg contents (blobs.drop cursor) =
      blobSequence cfg contents blob ++ tableSequence cfg contents (blobs.drop (cursor + 1)) := by
  obtain ⟨hlt, rfl⟩ := List.getElem?_eq_some_iff.mp h
  rw [List.drop_eq_getElem_cons hlt, tableSequence, List.flatMap_cons, tableSequence]

/-- An iteration that returns no row leaves the same rows to return. -/
theorem ScanSound.again (hread : BlobsReadable cfg contents openBlob blobs)
    (h : ScanSound cfg blobs s) (hit : Iterates cfg openBlob pullItem s (.again s')) :
    ScanSound cfg blobs s' ∧ s'.upcoming cfg contents = s.upcoming cfg contents := by
  have hdrop := ScanState.dropBatch_eq h.fresh
  cases hit with
  | @pulled items rest b hbatch hstream hpull =>
    obtain rfl := pullItem_eq_batch hpull
    obtain ⟨batches, hbatches⟩ := h.stream _ hstream
    obtain ⟨b', rest', rfl, hb, hrest⟩ := List.map_eq_cons_iff.mp hbatches.symm
    rw [hdrop]
    refine ⟨⟨h.blobs_eq, fun items hitems => ⟨rest', ?_⟩, nofun, h.unpartitioned⟩, ?_⟩
    · rw [← Option.some.inj hitems, hrest]
    · rw [ScanState.upcoming, ScanState.upcoming, ScanState.rowsLeft_of_done hbatch, hstream]
      rfl
  | ended hbatch hstream hpull =>
    obtain rfl := pullItem_eq_ended hpull
    rw [hdrop]
    refine ⟨⟨h.blobs_eq, nofun, fun _ => rfl, h.unpartitioned⟩, ?_⟩
    rw [ScanState.upcoming, ScanState.upcoming, ScanState.rowsLeft_of_done hbatch, hstream]
    rfl
  | took hbatch hstream htakes =>
    have hleft : s.rowsLeft = [] := by rw [ScanState.rowsLeft_of_done hbatch, hstream, Option.elim_none]
    rw [hdrop] at htakes
    cases htakes with
    | @skipped blob notice hblob hskip =>
      refine ⟨⟨h.blobs_eq, fun items hitems => h.stream items hitems, fun _ => rfl,
        h.unpartitioned⟩, ?_⟩
      have hnone : blobSequence cfg contents blob = [] := by rw [blobSequence, if_pos hskip]
      rw [ScanState.upcoming, ScanState.upcoming, hleft, tableSequence_drop hblob, hnone]
      simp [ScanState.rowsLeft, hstream]
    | @entered blob datums stream hblob hskip hdatums hopen =>
      have hmem : blob ∈ blobs := h.blobs_eq ▸ List.mem_of_getElem? hblob
      obtain rfl := Except.ok.inj ((hread blob hmem hskip).symm.trans hopen)
      have hdatumsOf : datums = cfg.datumsOf blob.1 := h.datumsOf_eq hdatums
      refine ⟨⟨h.blobs_eq, fun items hitems => ⟨_, (Option.some.inj hitems).symm⟩, fun _ => rfl,
        fun hdecl => ?_⟩, ?_⟩
      · rw [hdatumsOf, ScanConfig.datumsOf, if_pos hdecl]
      · have hblobRows : blobSequence cfg contents blob =
            numberRows datums 0 ((contents blob.1).flatMap fun b => b.rowsFrom 0) := by
          rw [blobSequence, hskip, hdatumsOf]
          rfl
        rw [ScanState.upcoming, ScanState.upcoming, hleft, tableSequence_drop hblob, hblobRows]
        simp [ScanState.rowsLeft, itemRows_map_ok, numberRows_nil]

/-- An iteration always ends. -/
theorem ScanSound.exists_step (hread : BlobsReadable cfg contents openBlob blobs)
    (h : ScanSound cfg blobs s) : ∃ it, nextRowStep cfg openBlob pullItem s = .ok it := by
  unfold nextRowStep
  cases s.curBatch.filter fun b => s.curRow < b.batch.numRows with
  | some b => exact ⟨_, rfl⟩
  | none =>
    cases hstream : s.curStream with
    | some items =>
      obtain ⟨batches, rfl⟩ := h.stream items hstream
      cases batches with
      | nil => exact ⟨_, rfl⟩
      | cons b batches => exact ⟨_, rfl⟩
    | none =>
      simp only [takeBlob, SequentialRanges.nextBlob, ScanState.dropBatch_rangeProducer]
      cases hblob : s.rangeProducer.blobs[s.rangeProducer.cursor]? with
      | none => exact ⟨_, rfl⟩
      | some blob =>
        have hmem : blob ∈ blobs := h.blobs_eq ▸ List.mem_of_getElem? hblob
        by_cases hdecl : cfg.partitionKeysDecl.isEmpty = true
        · have hskip : cfg.skips blob.1 = false := by
            simp only [ScanConfig.skips, hdecl, Bool.not_true, Bool.false_and]
          simp only [hdecl, if_true, enterBlob, hread blob hmem hskip]
          exact ⟨_, rfl⟩
        · obtain ⟨read, hpath⟩ := partitionDatums_ok cfg.ext cfg.partitionKeysDecl blob.1
          simp only [if_neg hdecl, hpath]
          cases read with
          | error notice => exact ⟨_, rfl⟩
          | ok datums =>
            have hskip : cfg.skips blob.1 = false := by simp [ScanConfig.skips, hpath]
            simp only [enterBlob, hread blob hmem hskip]
            exact ⟨_, rfl⟩

/-- **What `next_row` returns** is the first of the rows to come, and those after it are left. -/
theorem nextRow_upcoming (hread : BlobsReadable cfg contents openBlob blobs)
    (h : ScanSound cfg blobs s) :
    (∃ t, nextRow cfg openBlob s = .ok (none, t) ∧ s.upcoming cfg contents = [] ∧
      ScanSound cfg blobs t ∧ t.upcoming cfg contents = []) ∨
    ∃ batch row t, nextRow cfg openBlob s = .ok (some (batch, row), t) ∧
      ∀ table slot, ScanSound cfg blobs (t.bookkeep table slot) ∧ s.upcoming cfg contents =
        ⟨batch, row, t.partitionDatumsForCurrentBlob, t.curRowInBlob⟩ ::
          (t.bookkeep table slot).upcoming cfg contents := by
  induction s using nextRow.induct cfg openBlob with
  | case1 s f hstep =>
    obtain ⟨it, hit⟩ := h.exists_step hread
    cases hstep.symm.trans hit
  | case2 s batch row s' hstep =>
    refine .inr ⟨batch, row, s', nextRow_of_row hstep, fun table slot => ?_⟩
    cases nextRowStep_iterates hstep with
    | took hbatch hstream htakes => cases htakes
    | row hbatch hrow =>
      have hsome : s.curBatch ≠ none := by simp [hbatch]
      refine ⟨⟨h.blobs_eq, h.stream, fun hnone => absurd hnone hsome, h.unpartitioned⟩, ?_⟩
      rw [ScanState.upcoming, ScanState.rowsLeft, hbatch, Option.elim_some,
        FileBatch.rowsFrom_of_lt hrow, List.cons_append, numberRows_cons, List.cons_append]
      simp [ScanState.upcoming, ScanState.rowsLeft, ScanState.bookkeep]
  | case3 s s' hstep =>
    refine .inl ⟨s', nextRow_of_done hstep, ?_⟩
    cases nextRowStep_iterates hstep with
    | took hbatch hstream htakes =>
      rw [ScanState.dropBatch_eq h.fresh] at htakes
      cases htakes with
      | exhausted hnone =>
        have hdrop : s.rangeProducer.blobs.drop s.rangeProducer.cursor = [] :=
          List.drop_eq_nil_of_le (List.getElem?_eq_none_iff.mp hnone)
        refine ⟨?_, ⟨h.blobs_eq, h.stream, fun _ => rfl, h.unpartitioned⟩, ?_⟩
        · rw [ScanState.upcoming, ScanState.rowsLeft_of_done hbatch, hstream, hdrop]
          rfl
        · rw [ScanState.upcoming, hdrop]
          simp [ScanState.rowsLeft, hstream, numberRows_nil, tableSequence]
  | case4 s s' hstep ih =>
    obtain ⟨hs', hupcoming⟩ := h.again hread (nextRowStep_iterates hstep)
    rw [nextRow_of_again hstep, ← hupcoming]
    exact ih hs'

/-- A call takes the first of the rows to come, if there is one. -/
theorem ScanCall.upcoming_eq (hread : BlobsReadable cfg contents openBlob blobs)
    (h : ScanSound cfg blobs s) {out : Option (ScannedRow τ)} (hcall : ScanCall cfg openBlob s out s') :
    ScanSound cfg blobs s' ∧ out = (s.upcoming cfg contents).head? ∧
      s'.upcoming cfg contents = (s.upcoming cfg contents).tail := by
  rcases nextRow_upcoming hread h with ⟨t, hnext, hempty, ht, htempty⟩ | ⟨batch, row, t, hnext, ht⟩
  · cases hcall with
    | row hnext' => cases Except.ok.inj (hnext.symm.trans hnext')
    | ended hnext' =>
      obtain ⟨-, rfl⟩ := Prod.mk.inj (Except.ok.inj (hnext.symm.trans hnext'))
      exact ⟨ht, by rw [hempty, List.head?_nil], by rw [hempty, htempty, List.tail_nil]⟩
  · cases hcall with
    | @row _ _ _ table slot hnext' =>
      obtain ⟨hrow, rfl⟩ := Prod.mk.inj (Except.ok.inj (hnext.symm.trans hnext'))
      obtain ⟨rfl, rfl⟩ := Prod.mk.inj (Option.some.inj hrow)
      obtain ⟨hsound, hupcoming⟩ := ht table slot
      exact ⟨hsound, by rw [hupcoming, List.head?_cons], by rw [hupcoming, List.tail_cons]⟩
    | ended hnext' => cases Except.ok.inj (hnext.symm.trans hnext')

/-- A call is always answered. -/
theorem ScanSound.exists_call (hread : BlobsReadable cfg contents openBlob blobs)
    (h : ScanSound cfg blobs s) : ∃ out s', ScanCall cfg openBlob s out s' := by
  rcases nextRow_upcoming hread h with ⟨t, hnext, -⟩ | ⟨batch, row, t, hnext, -⟩
  · exact ⟨none, t, .ended hnext⟩
  · exact ⟨_, t.bookkeep [] [], .row hnext⟩

/-- A rescan leads back to the start, with the whole table to come. -/
theorem ScanSound.reScan (h : ScanSound cfg blobs s) :
    ScanSound cfg blobs (reScanForeignScan blobs s) where
  blobs_eq := rfl
  stream := nofun
  fresh _ := rfl
  unpartitioned := h.unpartitioned

theorem upcoming_reScan (s : ListScan τ) :
    (reScanForeignScan blobs s).upcoming cfg contents = tableSequence cfg contents blobs := rfl

theorem ScanSound.initial (natts : ℕ) : ScanSound cfg blobs (.initial blobs natts : ListScan τ) where
  blobs_eq := rfl
  stream := nofun
  fresh _ := rfl
  unpartitioned _ := rfl

/-- Every state of a scan, with any number of rescans in it. -/
theorem ScanSound.of_run (hread : BlobsReadable cfg contents openBlob blobs) {natts : ℕ}
    {ls : List (Option (Option (ScannedRow τ)))}
    (run : Runs.Run (ScanStep cfg openBlob blobs) (.initial blobs natts) ls s) :
    ScanSound cfg blobs s := by
  refine run.invariant (.initial natts) fun s l s' h hstep => ?_
  cases hstep with
  | call hcall => exact (hcall.upcoming_eq hread h).1
  | rescan => exact h.reScan

/-- The calls from a state return the rows that it has to return, in order, and then none. -/
theorem ScanSound.calls (hread : BlobsReadable cfg contents openBlob blobs)
    (h : ScanSound cfg blobs s) {outs : List (Option (ScannedRow τ))}
    (run : Runs.Run (ScanCall cfg openBlob) s outs s') :
    ScanSound cfg blobs s' ∧ s'.upcoming cfg contents = (s.upcoming cfg contents).drop outs.length ∧
      ∀ i, i < outs.length → outs[i]? = some (s.upcoming cfg contents)[i]? := by
  refine run.induct (I := fun outs s' => ScanSound cfg blobs s' ∧
    s'.upcoming cfg contents = (s.upcoming cfg contents).drop outs.length ∧
      ∀ i, i < outs.length → outs[i]? = some (s.upcoming cfg contents)[i]?) ⟨h, rfl, nofun⟩ ?_
  rintro outs t out t' ⟨ht, hupcoming, houts⟩ hcall
  obtain ⟨ht', hout, hupcoming'⟩ := hcall.upcoming_eq hread ht
  rw [hupcoming] at hout hupcoming'
  refine ⟨ht', ?_, fun i hi => ?_⟩
  · rw [hupcoming', List.tail_drop, List.length_append, List.length_singleton]
  · rcases Nat.lt_or_ge i outs.length with hlt | hge
    · rw [List.getElem?_append_left hlt, houts i hlt]
    · obtain rfl : i = outs.length := by
        rw [List.length_append, List.length_singleton] at hi
        omega
      rw [List.getElem?_concat_length, hout, List.head?_drop]

/-- **A scan returns the table, and a rescan returns it again.**  From the start of a scan, or from
a rescan at any point of one, every call of `next_row` returns: first the rows of the blobs
that are not skipped, in the order of the list and of the files, each with the partition datums of
its blob and its number in the blob, and then no row, however often it is called. -/
theorem scan_returns_table (hread : BlobsReadable cfg contents openBlob blobs) (natts : ℕ)
    (hstart : s = .initial blobs natts ∨ ∃ ls s₀,
      Runs.Run (ScanStep cfg openBlob blobs) (.initial blobs natts) ls s₀ ∧
        s = reScanForeignScan blobs s₀)
    {outs : List (Option (ScannedRow τ))} (calls : Runs.Run (ScanCall cfg openBlob) s outs s') :
    (∀ i, i < outs.length → outs[i]? = some (tableSequence cfg contents blobs)[i]?) ∧
      ∃ out t, ScanCall cfg openBlob s' out t := by
  obtain ⟨hsound, hupcoming⟩ : ScanSound cfg blobs s ∧
      s.upcoming cfg contents = tableSequence cfg contents blobs := by
    rcases hstart with rfl | ⟨ls, s₀, run, rfl⟩
    · exact ⟨.initial natts, rfl⟩
    · exact ⟨(ScanSound.of_run hread run).reScan, upcoming_reScan s₀⟩
  obtain ⟨hsound', -, houts⟩ := hsound.calls hread calls
  rw [hupcoming] at houts
  exact ⟨houts, hsound'.exists_call hread⟩

end Sequence

/-- An empty batch, and one with a row. -/
def twoBatches : List (FileBatch Unit) :=
  [⟨(), [.int32, .int32], [0, 1], []⟩, ⟨(), [.int32, .int32], [0, 1], [(pairRow (1, 2024), 0)]⟩]

/-- A blob whose path is bad, and one with a row, which comes again after a rescan. -/
theorem first_row_comes_again :
    ∃ row t t', ScanCall (pairScan none [("year", .int4)]) (fun _ => .ok (twoBatches.map .ok))
        (.initial [("bad", "e1"), ("year=2024/a", "e2")] 2) (some row) t ∧
      ScanCall (pairScan none [("year", .int4)]) (fun _ => .ok (twoBatches.map .ok))
        (reScanForeignScan [("bad", "e1"), ("year=2024/a", "e2")] t) (some row) t' ∧
      row.partitionDatums = [.int4 2024] := by
  have hread : BlobsReadable (pairScan none [("year", .int4)]) (fun _ => twoBatches)
      (fun _ => .ok (twoBatches.map .ok)) [("bad", "e1"), ("year=2024/a", "e2")] :=
    fun _ _ _ => rfl
  have hskipped : (pairScan none [("year", .int4)]).skips "bad" = true := by
    simp [ScanConfig.skips, pairScan, no_year_in_path]
  have hentered : (pairScan none [("year", .int4)]).skips "year=2024/a" = false := by
    simp [ScanConfig.skips, pairScan, year_of_path]
  have hdatums : (pairScan none [("year", .int4)]).datumsOf "year=2024/a" = [.int4 2024] := by
    simp [ScanConfig.datumsOf, pairScan, year_of_path]
  obtain ⟨row, hrow, hrowDatums⟩ : ∃ row : ScannedRow Unit,
      (tableSequence (pairScan none [("year", .int4)]) (fun _ => twoBatches)
        [("bad", "e1"), ("year=2024/a", "e2")])[0]? = some row ∧ row.partitionDatums = [.int4 2024] := by
    refine ⟨⟨⟨(), [.int32, .int32], [0, 1], [(pairRow (1, 2024), 0)]⟩, 0, [.int4 2024], 0⟩, ?_, rfl⟩
    simp only [tableSequence, blobSequence, List.flatMap_cons, hskipped, hentered, hdatums]
    rfl
  obtain ⟨-, out, t, hcall⟩ := scan_returns_table hread 2 (.inl rfl) .nil
  obtain ⟨hout, -⟩ := scan_returns_table hread 2 (.inl rfl) (.snoc .nil hcall)
  obtain ⟨-, out', t', hcall'⟩ := scan_returns_table hread 2
    (.inr ⟨_, t, .snoc .nil (.call hcall), rfl⟩) .nil
  obtain ⟨hout', -⟩ := scan_returns_table hread 2
    (.inr ⟨_, t, .snoc .nil (.call hcall), rfl⟩) (.snoc .nil hcall')
  obtain rfl : out = some row := Option.some.inj ((hout 0 (by simp)).trans (congrArg some hrow))
  obtain rfl : out' = some row := Option.some.inj ((hout' 0 (by simp)).trans (congrArg some hrow))
  exact ⟨row, t, t', hcall, hcall', hrowDatums⟩

end ParquetAzureFdw
