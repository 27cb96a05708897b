/-
# The rows of a parallel scan

`next_row` of `src/fdw/scan.rs` in the processes of a parallel scan
(`src/fdw/parallel.rs`).  Each worker has a `ScanState` of its own, with its stream, its
batch and the partition datums of its blob, and shares only the cursor of the segment;
`fetch_add` moves it, past the end too.  The leader's state is that of a sequential scan.  The
iterations of the processes come in any order, and the Gather node may start the scan again at
any point: it resets the cursor, rescans the leader's state and launches new workers, not always
as many as before.

What the workers have returned, what each has left of its blob, and the blobs behind the shared
cursor together make up the table at every point (`GatherSound.workers`), whoever has
taken what.  Each iteration lowers a number (`GatherState.weight`), so the processes get to their
end in every order of iterations; then the rows returned since the scan was started last are
those of the table exactly when the leader did not scan along with a worker, or the table
is empty (`gather_returns_table_iff`).
-/

import Mathlib.Algebra.BigOperators.Fin
import ParquetAzureFdw.Scan.Parallel
import ParquetAzureFdw.Scan.Rescan

namespace ParquetAzureFdw

open Runs

/-! ### The processes -/

section Processes

variable {τ : Type}

/-- A parallel scan: the shared segment, and for each process its state and whether it has
returned an empty slot. -/
structure GatherState (τ : Type) where
  dsm : ParallelDsmState
  launched : ℕ
  procs : Participant launched → ListScan τ
  finished : Participant launched → Bool

/-- `initialize_worker_foreign_scan` in `n` workers, beside a leader. -/
def GatherState.launch (dsm : ParallelDsmState) (natts n : ℕ) (leader : ListScan τ) :
    GatherState τ where
  dsm := dsm
  launched := n
  procs
    | .leader => leader
    | .worker _ => .initial dsm.blobs natts
  finished _ := false

/-- The state after `begin_foreign_scan`, `initialize_dsm_foreign_scan` and the launch. -/
def GatherState.initial (blobs : List ListedBlob) (natts n : ℕ) : GatherState τ :=
  .launch (initializeDsm blobs) natts n (.initial blobs natts)

/-- `re_initialize_dsm_foreign_scan`. -/
def reInitializeDsm (dsm : ParallelDsmState) : ParallelDsmState := { dsm with cursor := 0 }

/-- A rescan of the Gather node, with `n` workers. -/
def GatherState.relaunch (g : GatherState τ) (blobs : List ListedBlob) (natts n : ℕ) :
    GatherState τ :=
  .launch (reInitializeDsm g.dsm) natts n (reScanForeignScan blobs (g.procs .leader))

/-- A worker's state as `next_row` sees it: its `ParallelRanges` has a copy of the list, and hands
out the entry that the shared cursor is at. -/
def ParallelDsmState.attach (dsm : ParallelDsmState) (s : ListScan τ) : ListScan τ :=
  { s with rangeProducer := ⟨dsm.blobs, dsm.cursor⟩ }

/-- The state that an iteration of a process starts from. -/
def GatherState.view (g : GatherState τ) : Participant g.launched → ListScan τ
  | .leader => g.procs .leader
  | .worker i => g.dsm.attach (g.procs (.worker i))

/-- Whether an iteration of `next_row` calls `next_blob`. -/
def ScanState.asksBlob (s : ListScan τ) : Bool :=
  (s.curBatch.filter fun b => s.curRow < b.batch.numRows).isNone && s.curStream.isNone

/-- The segment after an iteration of a process: a worker that has called `next_blob` has
moved the cursor. -/
def GatherState.dsmAfter (g : GatherState τ) : Participant g.launched → ParallelDsmState
  | .leader => g.dsm
  | .worker i => if (g.procs (.worker i)).asksBlob then g.dsm.nextBlob.2 else g.dsm

/-- The scan after an iteration that has left a process in the state `s`. -/
def GatherState.advance (g : GatherState τ) (p : Participant g.launched) (s : ListScan τ)
    (fin : Bool) : GatherState τ :=
  { g with
    dsm := g.dsmAfter p
    procs := Function.update g.procs p s
    finished := Function.update g.finished p fin }

/-- Something that happens in a parallel scan: an iteration, of the leader or of a worker, with
the row it returns, if any; or a rescan. -/
inductive GatherEvent (τ : Type) where
  | iterated (leader : Bool) (out : Option (ScannedRow τ))
  | relaunched

/-- Whether a process is the leader. -/
def Participant.isLeader {n : ℕ} : Participant n → Bool
  | .leader => true
  | .worker _ => false

/-- The rows that have been returned, and by whom, after one more event: a rescan starts anew. -/
def GatherEvent.absorb (rows : List (Bool × ScannedRow τ)) :
    GatherEvent τ → List (Bool × ScannedRow τ)
  | .iterated leader out => rows ++ out.toList.map fun row => (leader, row)
  | .relaunched => []

/-- The rows returned since the scan was started last. -/
def gathered (events : List (GatherEvent τ)) : List (Bool × ScannedRow τ) :=
  events.foldl GatherEvent.absorb []

/-- Those of the leader, or those of the workers. -/
def gatheredBy (leader : Bool) (events : List (GatherEvent τ)) : List (ScannedRow τ) :=
  ((gathered events).filter fun r => r.1 == leader).map Prod.snd

variable (cfg : ScanConfig) (openBlob : String → Outcome (List (Outcome (FileBatch τ))))

/-- An iteration of `next_row` in one process, with what `iterate_foreign_scan` does with the row
it returns; whether the process is at its end. -/
inductive LocalStep (s : ListScan τ) : Option (ScannedRow τ) → Bool → ListScan τ → Prop
  | again {t : ListScan τ} (hstep : nextRowStep cfg openBlob pullItem s = .ok (.again t)) :
      LocalStep s none false t
  | row {t : ListScan τ} {batch : FileBatch τ} {row : ℕ} {table : List BlobIdEntry}
      {slot : List (Option Datum)}
      (hstep : nextRowStep cfg openBlob pullItem s = .ok (.row batch row t)) :
      LocalStep s (some ⟨batch, row, t.partitionDatumsForCurrentBlob, t.curRowInBlob⟩) false
        (t.bookkeep table slot)
  | done {t : ListScan τ} (hstep : nextRowStep cfg openBlob pullItem s = .ok (.done t)) :
      LocalStep s none true t

/-- An iteration of a process that scans and is not at its end. -/
inductive IterationStep (leaderParticipation : Bool) (g : GatherState τ) :
    GatherEvent τ → GatherState τ → Prop
  | iterated {p : Participant g.launched} {out : Option (ScannedRow τ)} {fin : Bool}
      {s : ListScan τ} (hscans : p.scans leaderParticipation = true) (hrunning : g.finished p = false)
      (hlocal : LocalStep cfg openBlob (g.view p) out fin s) :
      IterationStep leaderParticipation g (.iterated p.isLeader out) (g.advance p s fin)

/-- A step of a parallel scan. -/
inductive GatherStep (leaderParticipation : Bool) (blobs : List ListedBlob) (natts : ℕ)
    (g : GatherState τ) : GatherEvent τ → GatherState τ → Prop
  | iteration {e : GatherEvent τ} {g' : GatherState τ}
      (h : IterationStep cfg openBlob leaderParticipation g e g') :
      GatherStep leaderParticipation blobs natts g e g'
  | relaunched {n : ℕ} :
      GatherStep leaderParticipation blobs natts g .relaunched (g.relaunch blobs natts n)

/-- All processes that scan are at their end. -/
def GatherState.Done (leaderParticipation : Bool) (g : GatherState τ) : Prop :=
  ∀ p : Participant g.launched, p.scans leaderParticipation = true → g.finished p = true

end Processes

/-! ### One process -/

section Local

variable {τ : Type} (cfg : ScanConfig) (contents : String → List (FileBatch τ))

/-- The rows that a process has left of its blob. -/
def ScanState.ownRows (s : ListScan τ) : List (ScannedRow τ) :=
  numberRows s.partitionDatumsForCurrentBlob s.curRowInBlob s.rowsLeft

/-- The iterations that a process has left in its blob. -/
def ScanState.ownWeight (s : ListScan τ) : ℕ := s.rowsLeft.length + s.itemsLeft

/-- The iterations that a list of blobs takes, at most. -/
def blobsWeight (blobs : List ListedBlob) : ℕ :=
  (blobs.map fun blob =>
    2 + (contents blob.1).length + ((contents blob.1).flatMap fun b => b.rowsFrom 0).length).sum

/-- What an iteration does to the state of its process: the row it returns is the first of those to
come; unless the process is at its end, the cursor moves by one when a blob is asked for; and the
iterations left get fewer, the last one included. -/
structure LocalEffect (blobs : List ListedBlob) (s : ListScan τ) (out : Option (ScannedRow τ))
    (fin : Bool) (s' : ListScan τ) : Prop where
  sound : ScanSound cfg blobs s'
  upcoming : s.upcoming cfg contents = out.toList ++ s'.upcoming cfg contents
  cursor : fin = false → s'.rangeProducer.cursor =
    if s.asksBlob then s.rangeProducer.cursor + 1 else s.rangeProducer.cursor
  ended : fin = true → blobs.length ≤ s.rangeProducer.cursor ∧
    blobs.length ≤ s'.rangeProducer.cursor ∧ s'.ownRows = []
  weight : s'.ownWeight + (!fin).toNat + blobsWeight contents (blobs.drop s'.rangeProducer.cursor) <
    s.ownWeight + 1 + blobsWeight contents (blobs.drop s.rangeProducer.cursor)

variable {cfg contents} {openBlob : String → Outcome (List (Outcome (FileBatch τ)))}
  {blobs : List ListedBlob} {s s' : ListScan τ} {out : Option (ScannedRow τ)} {fin : Bool}

theorem ScanState.asksBlob_of_stream {items : List (Outcome (FileBatch τ))}
    (h : s.curStream = some items) : s.asksBlob = false := by
  rw [asksBlob, h, Option.isNone_some, Bool.and_false]

theorem ScanState.asksBlob_of_row {b : FileBatch τ} (hbatch : s.curBatch = some b)
    (hrow : s.curRow < b.batch.numRows) : s.asksBlob = false := by
  simp [asksBlob, hbatch, Option.filter, hrow]

theorem ScanState.asksBlob_of_done (hbatch : s.BatchDone) (hstream : s.curStream = none) :
    s.asksBlob = true := by
  have hfilter : (s.curBatch.filter fun b => s.curRow < b.batch.numRows) = none :=
    Option.filter_eq_none_iff.mpr fun b hb => by simpa using hbatch b hb
  rw [asksBlob, hfilter, hstream]
  rfl

/-- The first of the blobs left. -/
theorem blobsWeight_drop {cursor : ℕ} {blob : ListedBlob} (h : blobs[cursor]? = some blob) :
    blobsWeight contents (blobs.drop cursor) =
      2 + (contents blob.1).length + ((contents blob.1).flatMap fun b => b.rowsFrom 0).length +
        blobsWeight contents (blobs.drop (cursor + 1)) := by
  obtain ⟨hlt, rfl⟩ := List.getElem?_eq_some_iff.mp h
  rw [List.drop_eq_getElem_cons hlt, blobsWeight, List.map_cons, List.sum_cons, blobsWeight]

/-- An iteration that returns no row, and is not the last, moves the cursor only for a blob. -/
theorem cursor_of_again (hit : Iterates cfg openBlob pullItem s (.again s')) :
    s'.rangeProducer.cursor =
      if s.asksBlob then s.rangeProducer.cursor + 1 else s.rangeProducer.cursor := by
  cases hit with
  | pulled hbatch hstream hpull =>
    rw [ScanState.asksBlob_of_stream hstream, if_neg Bool.false_ne_true]
    exact congrArg SequentialRanges.cursor s.dropBatch_rangeProducer
  | ended hbatch hstream hpull =>
    rw [ScanState.asksBlob_of_stream hstream, if_neg Bool.false_ne_true]
    exact congrArg SequentialRanges.cursor s.dropBatch_rangeProducer
  | took hbatch hstream htakes =>
    rw [ScanState.asksBlob_of_done hbatch hstream, if_pos rfl, ← s.dropBatch_rangeProducer]
    cases htakes with
    | skipped hblob hskip => rfl
    | entered hblob hskip hdatums hopen => rfl

/-- Such an iteration leaves fewer. -/
theorem weight_of_again (hread : BlobsReadable cfg contents openBlob blobs)
    (h : ScanSound cfg blobs s) (hit : Iterates cfg openBlob pullItem s (.again s')) :
    s'.ownWeight + blobsWeight contents (blobs.drop s'.rangeProducer.cursor) <
      s.ownWeight + blobsWeight contents (blobs.drop s.rangeProducer.cursor) := by
  have hdrop := ScanState.dropBatch_eq h.fresh
  cases hit with
  | @pulled items rest b hbatch hstream hpull =>
    obtain rfl := pullItem_eq_batch hpull
    rw [ScanState.ownWeight, ScanState.ownWeight, ScanState.rowsLeft_of_done hbatch, hstream, hdrop]
    simp [ScanState.itemsLeft, ScanState.rowsLeft, itemRows, hstream]
  | ended hbatch hstream hpull =>
    obtain rfl := pullItem_eq_ended hpull
    rw [ScanState.ownWeight, ScanState.ownWeight, ScanState.rowsLeft_of_done hbatch, hstream, hdrop]
    simp [ScanState.itemsLeft, ScanState.rowsLeft, itemRows, hstream]
  | took hbatch hstream htakes =>
    have hown : s.ownWeight = 0 := by
      simp [ScanState.ownWeight, ScanState.rowsLeft_of_done hbatch, hstream, ScanState.itemsLeft]
    rw [hdrop] at htakes
    cases htakes with
    | @skipped blob notice hblob hskip =>
      have hblob' : blobs[s.rangeProducer.cursor]? = some blob := h.blobs_eq ▸ hblob
      rw [hown, blobsWeight_drop hblob']
      simp [ScanState.ownWeight, ScanState.rowsLeft, ScanState.itemsLeft, hstream]
    | @entered blob datums stream hblob hskip hdatums hopen =>
      have hblob' : blobs[s.rangeProducer.cursor]? = some blob := h.blobs_eq ▸ hblob
      have hmem : blob ∈ blobs := List.mem_of_getElem? hblob'
      obtain rfl := Except.ok.inj ((hread blob hmem hskip).symm.trans hopen)
      rw [hown, blobsWeight_drop hblob']
      simp only [ScanState.ownWeight, ScanState.rowsLeft, ScanState.itemsLeft, Option.elim_none,
        Option.elim_some, List.nil_append, itemRows_map_ok, List.length_map]
      omega

/-- **An iteration of a process.** -/
theorem LocalStep.effect (hread : BlobsReadable cfg contents openBlob blobs)
    (h : ScanSound cfg blobs s) (hstep : LocalStep cfg openBlob s out fin s') :
    LocalEffect cfg contents blobs s out fin s' := by
  cases hstep with
  | again hstep =>
    have hit := nextRowStep_iterates hstep
    obtain ⟨hsound, hupcoming⟩ := h.again hread hit
    exact {
      sound := hsound
      upcoming := hupcoming.symm
      cursor := fun _ => cursor_of_again hit
      ended := fun hfin => Bool.noConfusion hfin
      weight := by
        have hlt := weight_of_again hread h hit
        simp only [Bool.not_false, Bool.toNat_true]
        omega }
  | @row t batch row table slot hstep =>
    cases nextRowStep_iterates hstep with
    | took hbatch hstream htakes => cases htakes
    | row hbatch hrow =>
      have hsome : s.curBatch ≠ none := by simp [hbatch]
      have hrows : s.rowsLeft = (batch, s.curRow) ::
          (({ s with curRow := s.curRow + 1 } : ListScan τ).bookkeep table slot).rowsLeft := by
        rw [ScanState.rowsLeft, hbatch, Option.elim_some, FileBatch.rowsFrom_of_lt hrow]
        simp [ScanState.rowsLeft, ScanState.bookkeep]
      exact {
        sound := ⟨h.blobs_eq, h.stream, fun hnone => absurd hnone hsome, h.unpartitioned⟩
        upcoming := by rw [ScanState.upcoming, hrows, numberRows_cons]; rfl
        cursor := fun _ => by
          rw [ScanState.asksBlob_of_row hbatch hrow, if_neg Bool.false_ne_true]; rfl
        ended := fun hfin => Bool.noConfusion hfin
        weight := by
          refine Nat.add_lt_add_right (Nat.add_lt_add_right (Nat.add_lt_add_right ?_ _) _) _
          rw [hrows]
          exact Nat.lt_succ_self _ }
  | done hstep =>
    cases nextRowStep_iterates hstep with
    | took hbatch hstream htakes =>
      rw [ScanState.dropBatch_eq h.fresh] at htakes
      cases htakes with
      | exhausted hnone =>
        have hend : blobs.length ≤ s.rangeProducer.cursor :=
          h.blobs_eq ▸ List.getElem?_eq_none_iff.mp hnone
        have hrows : ({ s with curBatch := none, curRow := 0 } : ListScan τ).rowsLeft = [] := by
          simp [ScanState.rowsLeft, hstream]
        exact {
          sound := ⟨h.blobs_eq, h.stream, fun _ => rfl, h.unpartitioned⟩
          upcoming := by
            rw [ScanState.upcoming, ScanState.upcoming, hrows, ScanState.rowsLeft_of_done hbatch,
              hstream]
            rfl
          cursor := fun hfin => Bool.noConfusion hfin
          ended := fun _ => ⟨hend, hend, by rw [ScanState.ownRows, hrows, numberRows_nil]⟩
          weight := by
            have hown : ({ s with curBatch := none, curRow := 0 } : ListScan τ).ownWeight = 0 := by
              rw [ScanState.ownWeight, hrows]
              simp [ScanState.itemsLeft, hstream]
            rw [hown]
            simp only [Bool.not_true, Bool.toNat_false]
            omega }

end Local

/-! ### All processes -/

section Shares

variable {M : Type} [AddCommMonoid M] {n : ℕ}

/-- Shares of several, and what is left for all: one of them takes from what is left, and gives `o`
away. -/
theorem sum_update_account (f : Fin n → M) (i : Fin n) {x r t o : M}
    (h : f i + r = o + (x + t)) :
    ∑ j, f j + r = o + (∑ j, Function.update f i x j + t) := by
  rw [Finset.sum_update_of_mem (Finset.mem_univ i), Finset.sdiff_singleton_eq_erase,
    ← Finset.add_sum_erase _ f (Finset.mem_univ i), add_right_comm, h, add_right_comm x, add_assoc]

end Shares

section Gather

variable {τ : Type} (cfg : ScanConfig) (contents : String → List (FileBatch τ))
  (leaderParticipation : Bool) (blobs : List ListedBlob)

/-- What holds at every point of a parallel scan: the leader has returned the rows before its
own; the workers have returned the rows that no worker has left and no blob behind the cursor
has. -/
structure GatherSound (events : List (GatherEvent τ)) (g : GatherState τ) : Prop where
  dsm_blobs : g.dsm.blobs = blobs
  sound : ∀ p, ScanSound cfg blobs (g.view p)
  leader : gatheredBy true events ++ (g.procs .leader).upcoming cfg contents =
    tableSequence cfg contents blobs
  workers : (gatheredBy false events : Multiset (ScannedRow τ)) +
      (∑ i, ((g.procs (.worker i)).ownRows : Multiset (ScannedRow τ)) +
        (tableSequence cfg contents (blobs.drop g.dsm.cursor) : Multiset (ScannedRow τ))) =
    (tableSequence cfg contents blobs : Multiset (ScannedRow τ))
  leader_idle : Participant.scans leaderParticipation (.leader : Participant g.launched) = false →
    gatheredBy true events = []
  workers_idle : g.launched = 0 → g.dsm.cursor = 0
  leader_finished : g.finished .leader = true → (g.procs .leader).upcoming cfg contents = []
  worker_finished : ∀ i, g.finished (.worker i) = true →
    blobs.length ≤ g.dsm.cursor ∧ (g.procs (.worker i)).ownRows = []

/-- The iterations that a process has left in its blob, and its last one. -/
def GatherState.procWeight (g : GatherState τ) (p : Participant g.launched) : ℕ :=
  (g.procs p).ownWeight + (!g.finished p).toNat

/-- The iterations left, at most. -/
def GatherState.weight (g : GatherState τ) : ℕ :=
  g.procWeight .leader +
      blobsWeight contents (blobs.drop (g.procs .leader).rangeProducer.cursor) +
    (∑ i, g.procWeight (.worker i) + blobsWeight contents (blobs.drop g.dsm.cursor))

variable {cfg contents leaderParticipation blobs}
  {openBlob : String → Outcome (List (Outcome (FileBatch τ)))} {natts : ℕ}
  {events : List (GatherEvent τ)} {g g' : GatherState τ} {s : ListScan τ}
  {out : Option (ScannedRow τ)} {fin : Bool}

theorem gatheredBy_iterated (who leader : Bool) (out : Option (ScannedRow τ)) :
    gatheredBy who (events ++ [.iterated leader out]) =
      gatheredBy who events ++ if leader = who then out.toList else [] := by
  simp only [gatheredBy, gathered, List.foldl_append, List.foldl_cons, List.foldl_nil,
    GatherEvent.absorb, List.filter_append, List.map_append]
  congr 1
  split_ifs with hby
  · cases out <;> simp [hby]
  · cases out <;> simp [hby]

theorem gatheredBy_relaunched (who : Bool) :
    gatheredBy who (events ++ [.relaunched]) = [] := by
  simp [gatheredBy, gathered, GatherEvent.absorb]

/-- What was returned is what the leader and what the workers returned. -/
theorem gathered_perm (events : List (GatherEvent τ)) :
    ((gathered events).map Prod.snd).Perm (gatheredBy true events ++ gatheredBy false events) := by
  have hsplit := (List.filter_append_perm (fun r => r.1 == true) (gathered events)).symm
  rw [gatheredBy, gatheredBy, ← List.map_append]
  simpa using hsplit.map Prod.snd

/-- The workers' part of something that changes for one worker. -/
theorem Participant.update_worker {M : Type} {n : ℕ} (f : Participant n → M) (i : Fin n) (x : M) :
    (fun j => Function.update f (.worker i) x (.worker j)) =
      Function.update (fun j => f (.worker j)) i x := by
  funext j
  by_cases hj : j = i
  · rw [hj, Function.update_self, Function.update_self]
  · rw [Function.update_of_ne (by simpa using hj), Function.update_of_ne hj]

theorem GatherState.procWeight_advance (g : GatherState τ) (p : Participant g.launched) :
    (g.advance p s fin).procWeight =
      Function.update g.procWeight p (s.ownWeight + (!fin).toNat) := by
  show (fun q => (Function.update g.procs p s q).ownWeight +
    (!Function.update g.finished p fin q).toNat) = _
  funext q
  by_cases hq : q = p
  · rw [hq, Function.update_self, Function.update_self, Function.update_self]
  · rw [Function.update_of_ne hq, Function.update_of_ne hq, Function.update_of_ne hq,
      GatherState.procWeight]

theorem GatherState.weight_advance (g : GatherState τ) (p : Participant g.launched)
    {w : Participant g.launched → ℕ}
    (hw : w = Function.update g.procWeight p (s.ownWeight + (!fin).toNat)) :
    (g.advance p s fin).weight contents blobs =
      w .leader + blobsWeight contents
          (blobs.drop (Function.update g.procs p s .leader).rangeProducer.cursor) +
        (∑ i, w (.worker i) + blobsWeight contents (blobs.drop (g.dsmAfter p).cursor)) := by
  rw [hw, ← g.procWeight_advance p]
  rfl

/-- A worker's state is sound whatever the shared cursor is. -/
theorem ScanSound.attach (h : ScanSound cfg blobs s) {dsm : ParallelDsmState}
    (hblobs : dsm.blobs = blobs) : ScanSound cfg blobs (dsm.attach s) :=
  ⟨hblobs, h.stream, h.fresh, h.unpartitioned⟩

/-- The segment keeps its list, and the cursor does not go back. -/
theorem GatherState.dsmAfter_spec (g : GatherState τ) (p : Participant g.launched) :
    (g.dsmAfter p).blobs = g.dsm.blobs ∧ g.dsm.cursor ≤ (g.dsmAfter p).cursor := by
  cases p with
  | leader => exact ⟨rfl, le_rfl⟩
  | worker i =>
    rw [GatherState.dsmAfter]
    split_ifs
    · exact ⟨rfl, Nat.le_succ _⟩
    · exact ⟨rfl, le_rfl⟩

/-- The blobs behind the shared cursor after an iteration of a worker are those behind the
cursor of the worker's `next_row`: at the end, where the two differ, there are none. -/
theorem LocalEffect.drop_eq {i : Fin g.launched}
    (h : LocalEffect cfg contents blobs (g.view (.worker i)) out fin s) :
    blobs.drop (g.dsmAfter (.worker i)).cursor = blobs.drop s.rangeProducer.cursor := by
  cases fin with
  | false =>
    have hcursor : (g.dsmAfter (.worker i)).cursor = s.rangeProducer.cursor := by
      rw [h.cursor rfl, GatherState.dsmAfter]
      exact apply_ite ParallelDsmState.cursor ..
    rw [hcursor]
  | true =>
    obtain ⟨hend, hend', -⟩ := h.ended rfl
    rw [List.drop_eq_nil_of_le hend',
      List.drop_eq_nil_of_le (hend.trans (g.dsmAfter_spec (.worker i)).2)]

/-- The states that the other processes see stay sound. -/
theorem GatherSound.sound_advance (h : GatherSound cfg contents leaderParticipation blobs events g)
    (p : Participant g.launched) (hs : ScanSound cfg blobs s) (q : Participant g.launched) :
    ScanSound cfg blobs ((g.advance p s fin).view q) := by
  have hblobs : (g.dsmAfter p).blobs = blobs := (g.dsmAfter_spec p).1.trans h.dsm_blobs
  have hself : Function.update g.procs p s p = s := Function.update_self ..
  have hother : q ≠ p → Function.update g.procs p s q = g.procs q :=
    fun hq => Function.update_of_ne hq ..
  cases q with
  | leader =>
    show ScanSound cfg blobs (Function.update g.procs p s .leader)
    by_cases hq : Participant.leader = p
    · subst hq
      rwa [hself]
    · rw [hother hq]
      exact h.sound .leader
  | worker j =>
    show ScanSound cfg blobs ((g.dsmAfter p).attach (Function.update g.procs p s (.worker j)))
    by_cases hq : Participant.worker j = p
    · subst hq
      rw [hself]
      exact hs.attach hblobs
    · rw [hother hq]
      exact (h.sound (.worker j)).attach hblobs

/-- An iteration of the leader. -/
theorem GatherSound.iterate_leader
    (h : GatherSound cfg contents leaderParticipation blobs events g)
    (hscans : Participant.scans leaderParticipation (.leader : Participant g.launched) = true)
    (hlocal : LocalEffect cfg contents blobs (g.view .leader) out fin s) :
    GatherSound cfg contents leaderParticipation blobs (events ++ [.iterated true out])
      (g.advance .leader s fin) where
  dsm_blobs := h.dsm_blobs
  sound q := h.sound_advance .leader hlocal.sound q
  leader := by
    rw [gatheredBy_iterated, if_pos rfl, List.append_assoc, ← h.leader]
    exact congrArg (gatheredBy true events ++ ·) hlocal.upcoming.symm
  workers := by
    rw [gatheredBy_iterated, if_neg (by simp), List.append_nil]
    exact h.workers
  leader_idle hidle := Bool.noConfusion (hidle.symm.trans hscans)
  workers_idle := h.workers_idle
  leader_finished hfin := by
    obtain rfl : fin = true := hfin
    obtain ⟨-, hend, hown⟩ := hlocal.ended rfl
    show s.ownRows ++ tableSequence cfg contents
      (s.rangeProducer.blobs.drop s.rangeProducer.cursor) = []
    rw [hown, hlocal.sound.blobs_eq, List.drop_eq_nil_of_le hend]
    rfl
  worker_finished i hfin := h.worker_finished i hfin

/-- An iteration of a worker. -/
theorem GatherSound.iterate_worker
    (h : GatherSound cfg contents leaderParticipation blobs events g) {i : Fin g.launched}
    (hlocal : LocalEffect cfg contents blobs (g.view (.worker i)) out fin s) :
    GatherSound cfg contents leaderParticipation blobs (events ++ [.iterated false out])
      (g.advance (.worker i) s fin) where
  dsm_blobs := (g.dsmAfter_spec _).1.trans h.dsm_blobs
  sound q := h.sound_advance (.worker i) hlocal.sound q
  leader := by
    rw [gatheredBy_iterated, if_neg (by simp), List.append_nil]
    exact h.leader
  workers := by
    have hview : (g.view (.worker i)).upcoming cfg contents = (g.procs (.worker i)).ownRows ++
        tableSequence cfg contents (blobs.drop g.dsm.cursor) := by rw [← h.dsm_blobs]; rfl
    have hafter : s.upcoming cfg contents = s.ownRows ++
        tableSequence cfg contents (blobs.drop (g.dsmAfter (.worker i)).cursor) := by
      rw [hlocal.drop_eq, ← hlocal.sound.blobs_eq]; rfl
    have hshare := congrArg (Multiset.ofList (α := ScannedRow τ)) hlocal.upcoming
    rw [hview, hafter, ← Multiset.coe_add, ← Multiset.coe_add, ← Multiset.coe_add] at hshare
    have hsum := sum_update_account
      (fun j => ((g.procs (.worker j)).ownRows : Multiset (ScannedRow τ))) i hshare
    have hrows : (fun j => ((Function.update g.procs (.worker i) s (.worker j)).ownRows :
        Multiset (ScannedRow τ))) = Function.update
          (fun j => ((g.procs (.worker j)).ownRows : Multiset (ScannedRow τ))) i s.ownRows := by
      rw [← Participant.update_worker fun p => ((g.procs p).ownRows : Multiset (ScannedRow τ))]
      exact funext fun j => Function.apply_update
        (fun _ t => (ScanState.ownRows t : Multiset (ScannedRow τ))) g.procs _ s _
    rw [← hrows] at hsum
    rw [gatheredBy_iterated, if_pos rfl, ← h.workers, hsum, ← Multiset.coe_add, add_assoc]
    rfl
  leader_idle hidle := by
    rw [gatheredBy_iterated, if_neg (by simp), List.append_nil]
    exact h.leader_idle hidle
  workers_idle hn := absurd i.isLt (Nat.not_lt.mpr (le_of_eq_of_le hn (Nat.zero_le _)))
  leader_finished := h.leader_finished
  worker_finished := by
    have hmono := (g.dsmAfter_spec (.worker i)).2
    show ∀ j : Fin g.launched, Function.update g.finished (.worker i) fin (.worker j) = true →
      blobs.length ≤ (g.dsmAfter (.worker i)).cursor ∧
        (Function.update g.procs (.worker i) s (.worker j)).ownRows = []
    intro j hfin
    by_cases hj : Participant.worker j = Participant.worker i
    · rw [hj, Function.update_self] at hfin ⊢
      obtain ⟨hend, -, hown⟩ := hlocal.ended hfin
      exact ⟨hend.trans hmono, hown⟩
    · rw [Function.update_of_ne hj] at hfin ⊢
      obtain ⟨hend, hown⟩ := h.worker_finished j hfin
      exact ⟨hend.trans hmono, hown⟩

/-- The processes after a launch. -/
theorem GatherSound.launch {dsm : ParallelDsmState} {leader : ListScan τ} {n : ℕ}
    (hblobs : dsm.blobs = blobs) (hcursor : dsm.cursor = 0) (hleader : ScanSound cfg blobs leader)
    (hupcoming : leader.upcoming cfg contents = tableSequence cfg contents blobs)
    (hevents : ∀ who, gatheredBy who events = []) :
    GatherSound cfg contents leaderParticipation blobs events (.launch dsm natts n leader) where
  dsm_blobs := hblobs
  sound p := by
    cases p with
    | leader => exact hleader
    | worker i => exact (ScanSound.initial natts).attach hblobs
  leader := by rw [hevents, List.nil_append]; exact hupcoming
  workers := by
    show (gatheredBy false events : Multiset (ScannedRow τ)) + (∑ _ : Fin n, 0 +
      (tableSequence cfg contents (blobs.drop dsm.cursor) : Multiset (ScannedRow τ))) = _
    rw [hevents, hcursor, List.drop_zero, Multiset.coe_nil, zero_add, Finset.sum_const_zero, zero_add]
  leader_idle _ := hevents true
  workers_idle _ := hcursor
  leader_finished hfin := Bool.noConfusion hfin
  worker_finished _ hfin := Bool.noConfusion hfin

/-- **A step of a parallel scan keeps the account.** -/
theorem GatherSound.step (hread : BlobsReadable cfg contents openBlob blobs)
    (h : GatherSound cfg contents leaderParticipation blobs events g) {e : GatherEvent τ}
    (hstep : GatherStep cfg openBlob leaderParticipation blobs natts g e g') :
    GatherSound cfg contents leaderParticipation blobs (events ++ [e]) g' := by
  cases hstep with
  | iteration hit =>
    cases hit with
    | @iterated p out fin s hscans hrunning hlocal =>
      have heffect := hlocal.effect hread (h.sound p)
      cases p with
      | leader => exact h.iterate_leader hscans heffect
      | worker i => exact h.iterate_worker heffect
  | relaunched =>
    exact .launch h.dsm_blobs rfl (h.sound .leader).reScan (upcoming_reScan _) gatheredBy_relaunched

/-- An iteration leaves fewer. -/
theorem GatherSound.weight_lt (hread : BlobsReadable cfg contents openBlob blobs)
    (h : GatherSound cfg contents leaderParticipation blobs events g) {e : GatherEvent τ}
    (hit : IterationStep cfg openBlob leaderParticipation g e g') :
    g'.weight contents blobs < g.weight contents blobs := by
  cases hit with
  | @iterated p out fin s hscans hrunning hlocal =>
    have heffect := hlocal.effect hread (h.sound p)
    have hlt := heffect.weight
    cases p with
    | leader =>
      rw [g.weight_advance .leader rfl, Function.update_self, Function.update_self]
      refine Nat.add_lt_add_of_lt_of_le ?_ ?_
      · rw [GatherState.procWeight, hrunning]
        exact hlt
      · exact le_of_eq rfl
    | worker i =>
      have hproc : g.procWeight (.worker i) = (g.procs (.worker i)).ownWeight + 1 := by
        rw [GatherState.procWeight, hrunning]
        rfl
      rw [← heffect.drop_eq] at hlt
      obtain ⟨d, hd⟩ := Nat.exists_eq_add_of_lt hlt
      have hshare : g.procWeight (.worker i) + blobsWeight contents (blobs.drop g.dsm.cursor) =
          (d + 1) + (s.ownWeight + (!fin).toNat +
            blobsWeight contents (blobs.drop (g.dsmAfter (.worker i)).cursor)) := by
        rw [hproc, Nat.add_comm (d + 1), ← Nat.add_assoc]
        exact hd
      rw [g.weight_advance (.worker i) rfl, Function.update_of_ne (by simp),
        Function.update_of_ne (by simp), GatherState.weight,
        sum_update_account (fun j => g.procWeight (.worker j)) i hshare,
        Finset.sum_congr rfl fun j _ => congrFun (Participant.update_worker g.procWeight i _) j]
      omega

/-- A process that scans and is not at its end can go on. -/
theorem GatherSound.exists_iteration (hread : BlobsReadable cfg contents openBlob blobs)
    (h : GatherSound cfg contents leaderParticipation blobs events g)
    (hdone : ¬ g.Done leaderParticipation) :
    ∃ e g', IterationStep cfg openBlob leaderParticipation g e g' := by
  obtain ⟨p, hp⟩ := not_forall.mp hdone
  obtain ⟨hscans, hfin⟩ := Classical.not_imp.mp hp
  have hrunning : g.finished p = false := by simpa using hfin
  obtain ⟨it, hstep⟩ := (h.sound p).exists_step hread
  cases it with
  | row batch row t =>
    have hlocal : LocalStep cfg openBlob (g.view p) _ false (t.bookkeep [] []) := .row hstep
    exact ⟨_, _, .iterated hscans hrunning hlocal⟩
  | again t => exact ⟨_, _, .iterated hscans hrunning (.again hstep)⟩
  | done t => exact ⟨_, _, .iterated hscans hrunning (.done hstep)⟩

/-- Rows that the leader returns, if it scans, and that the workers return, if there are any. -/
theorem perm_table_iff {rows table : List (ScannedRow τ)} {n : ℕ}
    (h : rows.Perm ((if (leaderParticipation || n == 0) = true then table else []) ++
      if n = 0 then [] else table)) :
    rows.Perm table ↔ table = [] ∨ n = 0 ∨ leaderParticipation = false := by
  by_cases hn : n = 0
  · have honce : rows.Perm table := by simpa [hn] using h
    exact ⟨fun _ => .inr (.inl hn), fun _ => honce⟩
  · cases leaderParticipation with
    | false =>
      have honce : rows.Perm table := by simpa [hn] using h
      exact ⟨fun _ => .inr (.inr rfl), fun _ => honce⟩
    | true =>
      have htwice : rows.Perm (table ++ table) := by simpa [hn] using h
      constructor
      · intro honce
        have hlength := (honce.symm.trans htwice).length_eq
        rw [List.length_append, Nat.left_eq_add] at hlength
        exact .inl (List.eq_nil_of_length_eq_zero hlength)
      · rintro (rfl | h | h)
        · exact htwice
        · exact absurd h hn
        · cases h

/-- The workers' rows when all are at their end. -/
theorem GatherSound.workers_done (h : GatherSound cfg contents leaderParticipation blobs events g)
    (hdone : g.Done leaderParticipation) :
    (gatheredBy false events).Perm (if g.launched = 0 then [] else tableSequence cfg contents blobs) := by
  have hworkers := h.workers
  have hfin : ∀ i, blobs.length ≤ g.dsm.cursor ∧ (g.procs (.worker i)).ownRows = [] :=
    fun i => h.worker_finished i (hdone (.worker i) rfl)
  have hown : ∀ i ∈ Finset.univ, ((g.procs (.worker i)).ownRows : Multiset (ScannedRow τ)) = 0 :=
    fun i _ => by rw [(hfin i).2, Multiset.coe_nil]
  rw [Finset.sum_eq_zero hown, zero_add] at hworkers
  split_ifs with hn
  · rw [h.workers_idle hn, List.drop_zero, add_eq_right] at hworkers
    rw [(Multiset.coe_eq_zero _).mp hworkers]
  · have hend := (hfin ⟨0, Nat.pos_of_ne_zero hn⟩).1
    rw [List.drop_eq_nil_of_le hend] at hworkers
    exact Multiset.coe_eq_coe.mp ((add_zero _).symm.trans hworkers)

/-- The leader's rows when it is at its end, or idle. -/
theorem GatherSound.leader_done (h : GatherSound cfg contents leaderParticipation blobs events g)
    (hdone : g.Done leaderParticipation) :
    gatheredBy true events = if (leaderParticipation || g.launched == 0) = true then
      tableSequence cfg contents blobs else [] := by
  split_ifs with hscans
  · rw [← h.leader, h.leader_finished (hdone .leader hscans), List.append_nil]
  · exact h.leader_idle (by simpa [Participant.scans] using hscans)

/-- **What a parallel scan returns.**  At any point of a parallel scan, whatever the processes
have done until then, in any order and with any number of rescans: the processes come to their end
in every order of their iterations, and when they have, the rows returned since the scan was
started last, each with the partition datums of its blob and its number in it, are those of the
table, each once, exactly when there are none, no worker was launched, or the leader does not scan
along. -/
theorem gather_returns_table_iff (hread : BlobsReadable cfg contents openBlob blobs) {n : ℕ}
    (run : Run (GatherStep cfg openBlob leaderParticipation blobs natts) (.initial blobs natts n)
      events g) :
    (∀ more g', Run (IterationStep cfg openBlob leaderParticipation) g more g' →
      more.length ≤ g.weight contents blobs ∧
        ∃ rest g'', Run (IterationStep cfg openBlob leaderParticipation) g' rest g'' ∧
          g''.Done leaderParticipation) ∧
    (g.Done leaderParticipation →
      (((gathered events).map Prod.snd).Perm (tableSequence cfg contents blobs) ↔
        tableSequence cfg contents blobs = [] ∨ g.launched = 0 ∨ leaderParticipation = false)) := by
  have hsound : GatherSound cfg contents leaderParticipation blobs events g :=
    run.induct (.launch rfl rfl (.initial natts) rfl fun _ => rfl)
      fun _ _ _ _ h hstep => h.step hread hstep
  have hkeep : ∀ (g : GatherState τ) e g',
      (∃ events, GatherSound cfg contents leaderParticipation blobs events g) →
      IterationStep cfg openBlob leaderParticipation g e g' →
        (∃ events, GatherSound cfg contents leaderParticipation blobs events g') ∧
          g'.weight contents blobs < g.weight contents blobs := by
    rintro g e g' ⟨events, h⟩ hit
    have hstep : GatherStep cfg openBlob leaderParticipation blobs natts g e g' := .iteration hit
    exact ⟨⟨_, h.step hread hstep⟩, h.weight_lt hread hit⟩
  refine ⟨fun more g' more_run => ?_, fun hdone => ?_⟩
  · obtain ⟨hsound', hlength⟩ := more_run.length_le ⟨events, hsound⟩ hkeep
    refine ⟨by omega, Run.exists_done hkeep ?_ hsound'⟩
    rintro g ⟨events, h⟩ hdone
    exact h.exists_iteration hread hdone
  · have hperm := (gathered_perm events).trans ((hsound.workers_done hdone).append_left _)
    rw [hsound.leader_done hdone] at hperm
    exact perm_table_iff hperm

end Gather

/-- A blob whose path is bad, and one with a row: a leader that scans along with one worker returns
it too. -/
theorem leader_returns_again : ∃ events g,
    Run (GatherStep (pairScan none [("year", .int4)]) (fun _ => .ok (twoBatches.map .ok)) true
        [("bad", "e1"), ("year=2024/a", "e2")] 2)
      (.initial [("bad", "e1"), ("year=2024/a", "e2")] 2 1) events g ∧ g.Done true ∧
    ¬ ((gathered events).map Prod.snd).Perm
      (tableSequence (pairScan none [("year", .int4)]) (fun _ => twoBatches)
        [("bad", "e1"), ("year=2024/a", "e2")]) := by
  have hread : BlobsReadable (pairScan none [("year", .int4)]) (fun _ => twoBatches)
      (fun _ => .ok (twoBatches.map .ok)) [("bad", "e1"), ("year=2024/a", "e2")] :=
    fun _ _ _ => rfl
  have htable : tableSequence (pairScan none [("year", .int4)]) (fun _ => twoBatches)
      [("bad", "e1"), ("year=2024/a", "e2")] ≠ [] := by
    have hentered : (pairScan none [("year", .int4)]).skips "year=2024/a" = false := by
      simp [ScanConfig.skips, pairScan, year_of_path]
    have hrows : blobSequence (pairScan none [("year", .int4)]) (fun _ => twoBatches)
        ("year=2024/a", "e2") ≠ [] := by
      rw [blobSequence, hentered]
      exact List.cons_ne_nil _ _
    intro hnil
    exact hrows (List.flatMap_eq_nil_iff.mp hnil _ (by simp))
  have start : Run (GatherStep (pairScan none [("year", .int4)])
      (fun _ => .ok (twoBatches.map .ok)) true [("bad", "e1"), ("year=2024/a", "e2")] 2)
      (.initial [("bad", "e1"), ("year=2024/a", "e2")] 2 1) [] _ := .nil
  obtain ⟨-, events, g, run, hdone⟩ := (gather_returns_table_iff hread start).1 [] _ .nil
  have hrun : Run (GatherStep (pairScan none [("year", .int4)])
      (fun _ => .ok (twoBatches.map .ok)) true [("bad", "e1"), ("year=2024/a", "e2")] 2)
      (.initial [("bad", "e1"), ("year=2024/a", "e2")] 2 1) events g :=
    run.mono fun _ _ _ hit => .iteration hit
  have hlaunched : g.launched = 1 :=
    run.invariant (I := fun g => g.launched = 1) rfl fun g e g' hg hit => by cases hit; exact hg
  refine ⟨events, g, hrun, hdone, fun hperm => ?_⟩
  rcases ((gather_returns_table_iff hread hrun).2 hdone).mp hperm with h | h | h
  · exact htable h
  · rw [hlaunched] at h
    cases h
  · cases h

end ParquetAzureFdw
