/-
# The parallel scan

`src/fdw/parallel.rs`.  A parallel scan has a leader and workers.  The leader's
`ScanState` comes from `build_state`, with a `SequentialRanges` of its own over the
blob list; `initialize_dsm_foreign_scan` writes the list and a cursor into shared
memory; each worker takes its blobs through `ParallelRanges`, which advances the
shared cursor.  Postgres has the leader scan along with the workers when leader
participation is on, and always when no worker could be launched.

The workers together take every blob once.  The leader does not look at the shared
cursor and takes every blob again, so the list is handed out once exactly when the
leader does not scan along with a worker, or there is nothing to scan
(`handed_out_once_iff`).
-/

import ParquetAzureFdw.Lib.Runs
import ParquetAzureFdw.Scan.State

namespace ParquetAzureFdw

open Runs

/-- The shared segment: `ParallelDsmStateHeader` and the list behind it. -/
structure ParallelDsmState where
  cursor : ℕ
  blobs : List ListedBlob
  deriving DecidableEq, Repr

/-- `dsm_serialize_blobs`, as `initialize_dsm_foreign_scan` calls it. -/
def initializeDsm (blobs : List ListedBlob) : ParallelDsmState := ⟨0, blobs⟩

/-- `ParallelRanges::next_blob`: `fetch_add` on the shared cursor. -/
def ParallelDsmState.nextBlob (dsm : ParallelDsmState) : Option ListedBlob × ParallelDsmState :=
  (dsm.blobs[dsm.cursor]?, { dsm with cursor := dsm.cursor + 1 })

/-- The processes of a scan with `n` launched workers. -/
inductive Participant (n : ℕ) where
  | leader
  | worker (i : Fin n)
  deriving DecidableEq

/-- The state of a parallel scan. -/
structure ParallelScan (n : ℕ) where
  leader : SequentialRanges
  dsm : ParallelDsmState
  finished : Participant n → Bool

/-- The state after `build_state` and `initialize_dsm_foreign_scan`. -/
def ParallelScan.initial (n : ℕ) (blobs : List ListedBlob) : ParallelScan n where
  leader := ⟨blobs, 0⟩
  dsm := initializeDsm blobs
  finished _ := false

/-- Whether a process scans at all, as the executor's Gather node decides. -/
def Participant.scans {n : ℕ} (leaderParticipation : Bool) : Participant n → Bool
  | .leader => leaderParticipation || n == 0
  | .worker _ => true

/-- `next_blob` of a process. -/
def ParallelScan.nextBlob {n : ℕ} (s : ParallelScan n) :
    Participant n → Option ListedBlob × ParallelScan n
  | .leader => (s.leader.nextBlob.1, { s with leader := s.leader.nextBlob.2 })
  | .worker _ => (s.dsm.nextBlob.1, { s with dsm := s.dsm.nextBlob.2 })

/-- A process that has not yet received `None` calls `next_blob`. -/
def ParallelStep {n : ℕ} (leaderParticipation : Bool) (s : ParallelScan n)
    (call : Participant n × Option ListedBlob) (s' : ParallelScan n) : Prop :=
  call.1.scans leaderParticipation = true ∧ s.finished call.1 = false ∧
    call.2 = (s.nextBlob call.1).1 ∧
    s' = { (s.nextBlob call.1).2 with
      finished := fun p => if p = call.1 then call.2.isNone else s.finished p }

/-- The runs of a parallel scan. -/
abbrev ParallelRun (n : ℕ) (leaderParticipation : Bool) (blobs : List ListedBlob)
    (calls : List (Participant n × Option ListedBlob)) (s : ParallelScan n) : Prop :=
  Run (ParallelStep leaderParticipation) (ParallelScan.initial n blobs) calls s

/-- The blobs handed out over all processes. -/
def handedOut {n : ℕ} (calls : List (Participant n × Option ListedBlob)) : List ListedBlob :=
  calls.filterMap Prod.snd

/-! ### Who takes what -/

section Takes

variable {n : ℕ} {leaderParticipation : Bool} {blobs : List ListedBlob}
  {calls : List (Participant n × Option ListedBlob)} {s : ParallelScan n}

/-- Whether the call is the leader's. -/
def byLeader (call : Participant n × Option ListedBlob) : Bool := call.1 = .leader

/-- The blobs that the leader took. -/
def leaderTook (calls : List (Participant n × Option ListedBlob)) : List ListedBlob :=
  handedOut (calls.filter byLeader)

/-- The blobs that the workers took. -/
def workersTook (calls : List (Participant n × Option ListedBlob)) : List ListedBlob :=
  handedOut (calls.filter fun call => !byLeader call)

/-- What was handed out is what the leader and what the workers took. -/
theorem handedOut_perm (calls : List (Participant n × Option ListedBlob)) :
    (handedOut calls).Perm (leaderTook calls ++ workersTook calls) := by
  rw [leaderTook, workersTook, handedOut, handedOut, handedOut, ← List.filterMap_append]
  exact (List.filter_append_perm byLeader calls).symm.filterMap Prod.snd

theorem leaderTook_concat (p : Participant n) (r : Option ListedBlob) :
    leaderTook (calls ++ [(p, r)]) = leaderTook calls ++ if p = .leader then r.toList else [] := by
  simp only [leaderTook, handedOut, List.filter_append, List.filterMap_append]
  split_ifs with hp
  · cases r <;> simp [byLeader, hp]
  · simp [byLeader, hp]

theorem workersTook_concat (p : Participant n) (r : Option ListedBlob) :
    workersTook (calls ++ [(p, r)]) = workersTook calls ++ if p = .leader then [] else r.toList := by
  simp only [workersTook, handedOut, List.filter_append, List.filterMap_append]
  split_ifs with hp
  · simp [byLeader, hp]
  · cases r <;> simp [byLeader, hp]

/-- The leader's own cursor hands out the entry it is at, and stays at the end. -/
theorem SequentialRanges.nextBlob_spec (r : SequentialRanges) :
    r.nextBlob.2.blobs = r.blobs ∧
      r.blobs.take r.nextBlob.2.cursor = r.blobs.take r.cursor ++ r.nextBlob.1.toList ∧
      (r.nextBlob.1 = none → r.blobs.length ≤ r.nextBlob.2.cursor) ∧
      r.cursor ≤ r.nextBlob.2.cursor := by
  unfold SequentialRanges.nextBlob
  cases h : r.blobs[r.cursor]? with
  | none => exact ⟨rfl, by simp, fun _ => List.getElem?_eq_none_iff.mp h, le_rfl⟩
  | some b => exact ⟨rfl, by simp [List.take_add_one, h], by simp, Nat.le_succ _⟩

/-- The shared cursor hands out the entry it was at. -/
theorem ParallelDsmState.nextBlob_spec (dsm : ParallelDsmState) :
    dsm.nextBlob.2.blobs = dsm.blobs ∧
      dsm.blobs.take dsm.nextBlob.2.cursor = dsm.blobs.take dsm.cursor ++ dsm.nextBlob.1.toList ∧
      (dsm.nextBlob.1 = none → dsm.blobs.length ≤ dsm.nextBlob.2.cursor) ∧
      dsm.cursor ≤ dsm.nextBlob.2.cursor := by
  refine ⟨rfl, List.take_add_one .., fun h => ?_, Nat.le_succ _⟩
  have hend : dsm.blobs.length ≤ dsm.cursor := List.getElem?_eq_none_iff.mp h
  show dsm.blobs.length ≤ dsm.cursor + 1
  omega

/-- What holds after every run: each of the two cursors has handed out what is before
it, and a process that has finished has seen its cursor at the end. -/
structure Progress (leaderParticipation : Bool) (blobs : List ListedBlob)
    (calls : List (Participant n × Option ListedBlob)) (s : ParallelScan n) : Prop where
  leader_blobs : s.leader.blobs = blobs
  dsm_blobs : s.dsm.blobs = blobs
  leader_took : leaderTook calls = blobs.take s.leader.cursor
  workers_took : workersTook calls = blobs.take s.dsm.cursor
  leader_idle : (leaderParticipation || n == 0) = false → s.leader.cursor = 0
  workers_idle : n = 0 → s.dsm.cursor = 0
  leader_finished : s.finished .leader = true → blobs.length ≤ s.leader.cursor
  worker_finished : ∀ i, s.finished (.worker i) = true → blobs.length ≤ s.dsm.cursor

theorem Progress.initial : Progress leaderParticipation blobs [] (ParallelScan.initial n blobs) where
  leader_blobs := rfl
  dsm_blobs := rfl
  leader_took := by simp [leaderTook, handedOut, ParallelScan.initial]
  workers_took := by simp [workersTook, handedOut, ParallelScan.initial, initializeDsm]
  leader_idle _ := rfl
  workers_idle _ := rfl
  leader_finished h := Bool.noConfusion h
  worker_finished _ h := Bool.noConfusion h

/-- **A call keeps the progress.** -/
theorem Progress.step {call : Participant n × Option ListedBlob} {s' : ParallelScan n}
    (h : Progress leaderParticipation blobs calls s)
    (hstep : ParallelStep leaderParticipation s call s') :
    Progress leaderParticipation blobs (calls ++ [call]) s' := by
  obtain ⟨p, r⟩ := call
  obtain ⟨hscans, -, hr, rfl⟩ := hstep
  cases p with
  | leader =>
    obtain ⟨hblobs, htake, hnone, -⟩ := s.leader.nextBlob_spec
    obtain rfl : r = s.leader.nextBlob.1 := hr
    rw [h.leader_blobs] at hblobs htake hnone
    exact {
      leader_blobs := hblobs
      dsm_blobs := h.dsm_blobs
      leader_took := by rw [leaderTook_concat, if_pos rfl, h.leader_took]; exact htake.symm
      workers_took := by rw [workersTook_concat, if_pos rfl, List.append_nil]; exact h.workers_took
      leader_idle := fun hidle => absurd (hidle.symm.trans hscans) (by simp)
      workers_idle := h.workers_idle
      leader_finished := fun hfin => hnone (by simpa using hfin)
      worker_finished := fun i hfin => h.worker_finished i (by simpa using hfin) }
  | worker i =>
    obtain ⟨hblobs, htake, hnone, hmono⟩ := s.dsm.nextBlob_spec
    obtain rfl : r = s.dsm.nextBlob.1 := hr
    rw [h.dsm_blobs] at hblobs htake hnone
    exact {
      leader_blobs := h.leader_blobs
      dsm_blobs := hblobs
      leader_took := by rw [leaderTook_concat, if_neg (by simp), List.append_nil]; exact h.leader_took
      workers_took := by
        rw [workersTook_concat, if_neg (by simp), h.workers_took]; exact htake.symm
      leader_idle := h.leader_idle
      workers_idle := fun hn => absurd i.isLt (by omega)
      leader_finished := fun hfin => h.leader_finished (by simpa using hfin)
      worker_finished := fun j hfin => by
        by_cases hj : j = i
        · exact hnone (by simpa [hj] using hfin)
        · exact (h.worker_finished j (by simpa [hj] using hfin)).trans hmono }

/-- Progress along a whole run. -/
theorem ParallelRun.progress (run : ParallelRun n leaderParticipation blobs calls s) :
    Progress leaderParticipation blobs calls s :=
  run.induct Progress.initial fun _ _ _ _ h hstep => h.step hstep

/-- Once all processes have received `None`, the workers took the list, if there are any. -/
theorem Progress.workers_took_all (h : Progress leaderParticipation blobs calls s)
    (hdone : ∀ p : Participant n, p.scans leaderParticipation = true → s.finished p = true) :
    workersTook calls = if n = 0 then [] else blobs := by
  rw [h.workers_took]
  split_ifs with hn
  · rw [h.workers_idle hn, List.take_zero]
  · have hfin := hdone (.worker ⟨0, by omega⟩) rfl
    exact List.take_of_length_le (h.worker_finished _ hfin)

/-- So did the leader, if it scans. -/
theorem Progress.leader_took_all (h : Progress leaderParticipation blobs calls s)
    (hdone : ∀ p : Participant n, p.scans leaderParticipation = true → s.finished p = true) :
    leaderTook calls = if (leaderParticipation || n == 0) = true then blobs else [] := by
  rw [h.leader_took]
  split_ifs with hscans
  · exact List.take_of_length_le (h.leader_finished (hdone .leader hscans))
  · rw [h.leader_idle (by simpa using hscans), List.take_zero]

/-- **When the list is handed out exactly once.**  After a run in which all processes
have received `None`, the blobs handed out are those of the list, each as often as it
stands there, exactly when the list is empty, no worker was launched, or the leader
does not scan along. -/
theorem handed_out_once_iff (run : ParallelRun n leaderParticipation blobs calls s)
    (hdone : ∀ p : Participant n, p.scans leaderParticipation = true → s.finished p = true) :
    (handedOut calls).Perm blobs ↔ blobs = [] ∨ n = 0 ∨ leaderParticipation = false := by
  have hperm := handedOut_perm calls
  rw [run.progress.workers_took_all hdone, run.progress.leader_took_all hdone] at hperm
  by_cases hn : n = 0
  · have hall : (handedOut calls).Perm blobs := by simpa [hn] using hperm
    exact ⟨fun _ => .inr (.inl hn), fun _ => hall⟩
  · cases leaderParticipation with
    | false =>
      have hall : (handedOut calls).Perm blobs := by simpa [hn] using hperm
      exact ⟨fun _ => .inr (.inr rfl), fun _ => hall⟩
    | true =>
      have htwice : (handedOut calls).Perm (blobs ++ blobs) := by simpa [hn] using hperm
      constructor
      · intro honce
        have hlen := (htwice.symm.trans honce).length_eq
        rw [List.length_append] at hlen
        exact .inl (List.eq_nil_of_length_eq_zero (by omega))
      · rintro (rfl | h | h)
        · exact htwice
        · exact absurd h hn
        · cases h

/-- Two workers take a blob each, and the leader is idle. -/
theorem two_workers_hand_out_once : ∃ calls s,
    ParallelRun 2 false [("a", "e1"), ("b", "e2")] calls s ∧
      (handedOut calls).Perm [("a", "e1"), ("b", "e2")] := by
  have run : ParallelRun 2 false [("a", "e1"), ("b", "e2")]
      [(.worker 1, some ("a", "e1")), (.worker 0, some ("b", "e2")), (.worker 0, none),
        (.worker 1, none)] _ :=
    (((Run.nil.snoc ⟨rfl, rfl, rfl, rfl⟩).snoc ⟨rfl, rfl, rfl, rfl⟩).snoc
      ⟨rfl, rfl, rfl, rfl⟩).snoc ⟨rfl, rfl, rfl, rfl⟩
  refine ⟨_, _, run, (handed_out_once_iff run ?_).mpr (.inr (.inr rfl))⟩
  intro p hscans
  cases p with
  | leader => cases hscans
  | worker i => fin_cases i <;> rfl

/-- **A blob is scanned twice.**  The leader and one worker both take the only blob. -/
theorem leader_and_worker_hand_out_twice : ∃ calls s,
    ParallelRun 1 true [("a", "e1")] calls s ∧ (∀ p, s.finished p = true) ∧
      handedOut calls = [("a", "e1"), ("a", "e1")] := by
  have run : ParallelRun 1 true [("a", "e1")]
      [(.leader, some ("a", "e1")), (.worker 0, some ("a", "e1")), (.leader, none),
        (.worker 0, none)] _ :=
    (((Run.nil.snoc ⟨rfl, rfl, rfl, rfl⟩).snoc ⟨rfl, rfl, rfl, rfl⟩).snoc
      ⟨rfl, rfl, rfl, rfl⟩).snoc ⟨rfl, rfl, rfl, rfl⟩
  refine ⟨_, _, run, fun p => ?_, rfl⟩
  cases p with
  | leader => rfl
  | worker i =>
    obtain rfl : i = 0 := Subsingleton.elim i 0
    rfl

end Takes

end ParquetAzureFdw
