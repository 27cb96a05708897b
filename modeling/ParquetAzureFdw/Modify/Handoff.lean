/-
# The hand-off from a scan to UPDATE and DELETE

`src/fdw/modify/scan_handoff.rs`: a stack of blob lists for each foreign table, local to the backend.
`build_state` pushes the list of a scan that begins, `re_scan_foreign_scan` replaces the top,
`end_foreign_scan` pops it, and `build_plan` takes the one list there is.  No entry says which scan
pushed it, and nothing but these callbacks removes one: a scan that an error cuts off leaves
its entry (`HandoffEvent.leaks`), because Postgres then does not call `EndForeignScan`.

What an event does to the stack of a table is written down as two numbers, the length of the stack
and how many scans of the table are open (`Moves`).  Without leaks the stack is never longer than
that (`length_stack_le`), and without a take it is longer by the entries that leaked
(`length_stack_eq`).  So a later UPDATE finds its own list alone on the stack when no scan of the
table was cut off before (`handoff_undisturbed_iff`).
-/

import Mathlib.Data.List.AList
import ParquetAzureFdw.Lib.Runs
import ParquetAzureFdw.Scan.State

namespace ParquetAzureFdw

open Runs

/-- `HandoffStack`, the top first. -/
abbrev HandoffStack := List (List ListedBlob)

/-- `HANDOFF`. -/
abbrev Handoff := AList fun _ : Oid => HandoffStack

namespace Handoff

/-- `publish`. -/
def publish (h : Handoff) (relid : Oid) (blobs : List ListedBlob) : Handoff :=
  h.insert relid (blobs :: (h.lookup relid).getD [])

/-- The end of `take_unique` and of `discard`: the top is popped, and a stack that is then empty is
removed. -/
def pop (h : Handoff) (relid : Oid) (entry : HandoffStack) : Handoff :=
  if entry.tail.isEmpty then h.erase relid else h.insert relid entry.tail

/-- `take_unique`. -/
def takeUnique (h : Handoff) (relid : Oid) : FdwResult (Option (List ListedBlob)) × Handoff :=
  match h.lookup relid with
  | none => (.ok none, h)
  | some entry =>
    if 1 < entry.length then
      (.error (.schemaMismatch ("ambiguous scan_handoff for relid " ++ toString relid ++ ": " ++
        toString entry.length ++ " concurrent scans of the same foreign table in one statement " ++
        "(e.g. a self-referential UPDATE). v1 does not yet match the modify subtree to its driving " ++
        "scan; rewrite the query so the source rows come from a non-foreign source (CTE, " ++
        "materialised subquery) or use two distinct foreign tables over the same data")),
        h.erase relid)
    else (.ok entry.head?, h.pop relid entry)

/-- `discard`. -/
def discard (h : Handoff) (relid : Oid) : Handoff :=
  match h.lookup relid with
  | none => h
  | some entry => h.pop relid entry

/-- The blob list of `build_plan`. -/
def planBlobs (h : Handoff) (relid : Oid) : FdwResult (List ListedBlob) :=
  match (h.takeUnique relid).1 with
  | .error e => .error e
  | .ok (some blobs) => .ok blobs
  | .ok none =>
    .error (.schemaMismatch ("no scan-time blob list published for relid " ++ toString relid ++
      "; UPDATE/DELETE requires a preceding ForeignScan that publishes etags via scan_handoff"))

/-- The stack of a table. -/
def stack (h : Handoff) (relid : Oid) : HandoffStack := (h.lookup relid).getD []

variable {h : Handoff} {relid r : Oid} {blobs : List ListedBlob}

theorem stack_publish_self : (h.publish relid blobs).stack relid = blobs :: h.stack relid := by
  rw [stack, publish, AList.lookup_insert]
  rfl

theorem stack_publish_ne (hr : r ≠ relid) : (h.publish relid blobs).stack r = h.stack r := by
  rw [stack, publish, AList.lookup_insert_ne hr, stack]

theorem stack_pop_self (entry : HandoffStack) : (h.pop relid entry).stack relid = entry.tail := by
  rw [stack, pop]
  split_ifs with hempty
  · rw [AList.lookup_erase, List.isEmpty_iff.mp hempty]
    rfl
  · rw [AList.lookup_insert]
    rfl

theorem stack_pop_ne (hr : r ≠ relid) (entry : HandoffStack) :
    (h.pop relid entry).stack r = h.stack r := by
  rw [stack, pop, stack]
  split_ifs
  · rw [AList.lookup_erase_ne hr]
  · rw [AList.lookup_insert_ne hr]

theorem stack_discard_self : (h.discard relid).stack relid = (h.stack relid).tail := by
  unfold discard
  cases hlookup : h.lookup relid with
  | none => simp [stack, hlookup]
  | some entry =>
    rw [stack_pop_self, stack, hlookup]
    rfl

theorem stack_discard_ne (hr : r ≠ relid) : (h.discard relid).stack r = h.stack r := by
  unfold discard
  cases h.lookup relid with
  | none => rfl
  | some entry => exact stack_pop_ne hr entry

/-- Whatever it answers, `take_unique` leaves nothing. -/
theorem stack_takeUnique_self : (h.takeUnique relid).2.stack relid = [] := by
  unfold takeUnique
  cases hlookup : h.lookup relid with
  | none => simp [stack, hlookup]
  | some entry =>
    simp only
    split_ifs with hlength
    · rw [stack, AList.lookup_erase]
      rfl
    · rw [stack_pop_self, ← List.length_eq_zero_iff, List.length_tail]
      omega

theorem stack_takeUnique_ne (hr : r ≠ relid) : (h.takeUnique relid).2.stack r = h.stack r := by
  unfold takeUnique
  cases h.lookup relid with
  | none => rfl
  | some entry =>
    simp only
    split_ifs
    · rw [stack, AList.lookup_erase_ne hr, stack]
    · exact stack_pop_ne hr entry

/-- **`build_plan` gets a list when it is alone on the stack.** -/
theorem planBlobs_eq_ok_iff : h.planBlobs relid = .ok blobs ↔ h.stack relid = [blobs] := by
  unfold planBlobs takeUnique stack
  cases hlookup : h.lookup relid with
  | none => simp
  | some entry =>
    match entry with
    | [] => simp
    | [blobs'] => simp
    | _ :: _ :: _ => simp

end Handoff

/-! ### The scans of a backend -/

/-- A scan between `BeginForeignScan` and `EndForeignScan`: the node, its relation and the
`blobs` of its `ScanState`. -/
structure OpenScan where
  node : ℕ
  relid : Oid
  blobs : List ListedBlob
  deriving DecidableEq

/-- A backend: its hand-off, and the scans that are open. -/
structure ScanBackend where
  handoff : Handoff
  scans : List OpenScan

def ScanBackend.initial : ScanBackend := ⟨∅, []⟩

/-- What happens in a backend.  `core` is what `build_scan_state_core` returns, and `sorted` whether
`build_sorted_stream_if_active` succeeds. -/
inductive HandoffEvent where
  | beginForeignScan (node : ℕ) (relid : Oid) (core : FdwResult (List ListedBlob))
      (sorted : FdwResult Unit)
  | reScanForeignScan (scan : OpenScan) (sorted : FdwResult Unit)
  | endForeignScan (scan : OpenScan)
  /-- An error ends the statement; `EndForeignScan` is not called. -/
  | cutOff (scan : OpenScan)
  /-- `build_plan` of an UPDATE or DELETE. -/
  | buildPlan (relid : Oid)

namespace HandoffEvent

def relid : HandoffEvent → Oid
  | beginForeignScan _ relid _ _ => relid
  | reScanForeignScan scan _ => scan.relid
  | endForeignScan scan => scan.relid
  | cutOff scan => scan.relid
  | buildPlan relid => relid

/-- Postgres rescans and ends a scan that is open. -/
def Enabled (s : ScanBackend) : HandoffEvent → Prop
  | reScanForeignScan scan _ => scan ∈ s.scans
  | endForeignScan scan => scan ∈ s.scans
  | cutOff scan => scan ∈ s.scans
  | _ => True

/-- A scan of the table has published its list and will not be ended: an error cuts it off, in the
middle or in `build_state` after `publish`. -/
def leaks (relid : Oid) : HandoffEvent → Bool
  | beginForeignScan _ r (.ok _) (.error _) => r == relid
  | cutOff scan => scan.relid == relid
  | _ => false

end HandoffEvent

/-- `build_state` publishes before the sorted stream is built; `re_scan_foreign_scan` builds it
first. -/
def ScanBackend.apply (s : ScanBackend) : HandoffEvent → ScanBackend
  | .beginForeignScan _ _ (.error _) _ => s
  | .beginForeignScan _ relid (.ok blobs) (.error _) =>
    { s with handoff := s.handoff.publish relid blobs }
  | .beginForeignScan node relid (.ok blobs) (.ok ()) =>
    ⟨s.handoff.publish relid blobs, ⟨node, relid, blobs⟩ :: s.scans⟩
  | .reScanForeignScan _ (.error _) => s
  | .reScanForeignScan scan (.ok ()) =>
    { s with handoff := (s.handoff.discard scan.relid).publish scan.relid scan.blobs }
  | .endForeignScan scan => ⟨s.handoff.discard scan.relid, s.scans.erase scan⟩
  | .cutOff scan => { s with scans := s.scans.erase scan }
  | .buildPlan relid => { s with handoff := (s.handoff.takeUnique relid).2 }

/-- One event of a backend. -/
def HandoffStep (s : ScanBackend) (e : HandoffEvent) (s' : ScanBackend) : Prop :=
  e.Enabled s ∧ s' = s.apply e

/-- How many scans of a table are open. -/
def ScanBackend.opened (s : ScanBackend) (relid : Oid) : ℕ := s.scans.countP (·.relid == relid)

/-- What an event does to the length of the stack of a table, and to the number of its open scans. -/
inductive Moves (relid : Oid) (e : HandoffEvent) : ℕ × ℕ → ℕ × ℕ → Prop
  | idle {len opened : ℕ} (hleaks : e.leaks relid = false) : Moves relid e (len, opened) (len, opened)
  | begins {len opened : ℕ} (hleaks : e.leaks relid = false) :
      Moves relid e (len, opened) (len + 1, opened + 1)
  | leaksEntry {len opened : ℕ} (hleaks : e.leaks relid = true) :
      Moves relid e (len, opened) (len + 1, opened)
  | rescans {len opened : ℕ} (hleaks : e.leaks relid = false) (hopen : 0 < opened) :
      Moves relid e (len, opened) (len - 1 + 1, opened)
  | ends {len opened : ℕ} (hleaks : e.leaks relid = false) :
      Moves relid e (len, opened + 1) (len - 1, opened)
  | cut {len opened : ℕ} (hleaks : e.leaks relid = true) :
      Moves relid e (len, opened + 1) (len, opened)
  | takes {len opened : ℕ} (htake : e = .buildPlan relid) : Moves relid e (len, opened) (0, opened)

section Runs

variable {s s' : ScanBackend} {e : HandoffEvent} {relid : Oid} {history : List HandoffEvent}

theorem opened_cons (handoff : Handoff) (scan : OpenScan) :
    (ScanBackend.mk handoff (scan :: s.scans)).opened relid =
      s.opened relid + if scan.relid = relid then 1 else 0 := by
  simp [ScanBackend.opened, List.countP_cons]

theorem opened_erase (handoff : Handoff) (relid : Oid) {scan : OpenScan} (h : scan ∈ s.scans) :
    s.opened relid = (ScanBackend.mk handoff (s.scans.erase scan)).opened relid +
      if scan.relid = relid then 1 else 0 := by
  rw [ScanBackend.opened, (List.perm_cons_erase h).countP_eq, List.countP_cons]
  simp [ScanBackend.opened]

theorem opened_erase_self (handoff : Handoff) {scan : OpenScan} (h : scan ∈ s.scans) :
    s.opened scan.relid = (ScanBackend.mk handoff (s.scans.erase scan)).opened scan.relid + 1 := by
  rw [opened_erase handoff _ h, if_pos rfl]

theorem opened_erase_ne (handoff : Handoff) {scan : OpenScan} (h : scan ∈ s.scans)
    (hne : scan.relid ≠ relid) :
    (ScanBackend.mk handoff (s.scans.erase scan)).opened relid = s.opened relid := by
  rw [opened_erase handoff _ h, if_neg hne, Nat.add_zero]

/-- An event of another table leaves the stack and the open scans of this one. -/
theorem HandoffStep.frame (h : HandoffStep s e s') (hother : e.relid ≠ relid) :
    s'.handoff.stack relid = s.handoff.stack relid ∧ s'.opened relid = s.opened relid := by
  obtain ⟨henabled, rfl⟩ := h
  cases e with
  | beginForeignScan node r core sorted =>
    rcases core with _ | blobs
    · exact ⟨rfl, rfl⟩
    · rcases sorted with _ | ⟨⟩
      · exact ⟨Handoff.stack_publish_ne hother.symm, rfl⟩
      · exact ⟨Handoff.stack_publish_ne hother.symm, (opened_cons _ _).trans (if_neg hother ▸ rfl)⟩
  | reScanForeignScan scan sorted =>
    rcases sorted with _ | ⟨⟩
    · exact ⟨rfl, rfl⟩
    · exact ⟨(Handoff.stack_publish_ne hother.symm).trans (Handoff.stack_discard_ne hother.symm), rfl⟩
  | endForeignScan scan =>
    exact ⟨Handoff.stack_discard_ne hother.symm, opened_erase_ne _ henabled hother⟩
  | cutOff scan => exact ⟨rfl, opened_erase_ne _ henabled hother⟩
  | buildPlan r => exact ⟨Handoff.stack_takeUnique_ne hother.symm, rfl⟩

theorem leaks_eq_false_of_ne (hother : e.relid ≠ relid) : e.leaks relid = false := by
  cases e with
  | beginForeignScan node r core sorted =>
    rcases core with _ | blobs <;> rcases sorted with _ | ⟨⟩ <;> first | rfl | exact beq_false_of_ne hother
  | cutOff scan => exact beq_false_of_ne hother
  | _ => rfl

/-- **What an event does.** -/
theorem HandoffStep.moves (h : HandoffStep s e s') (relid : Oid) :
    Moves relid e ((s.handoff.stack relid).length, s.opened relid)
      ((s'.handoff.stack relid).length, s'.opened relid) := by
  by_cases hother : e.relid = relid
  · subst hother
    obtain ⟨henabled, rfl⟩ := h
    cases e with
    | beginForeignScan node r core sorted =>
      rcases core with _ | blobs
      · exact .idle rfl
      · have hlength : ((s.handoff.publish r blobs).stack r).length = (s.handoff.stack r).length + 1 :=
          congrArg List.length Handoff.stack_publish_self
        rcases sorted with _ | ⟨⟩
        · show Moves r _ _ (((s.handoff.publish r blobs).stack r).length, s.opened r)
          rw [hlength]
          exact .leaksEntry (beq_self_eq_true r)
        · show Moves r _ _ (((s.handoff.publish r blobs).stack r).length,
            (ScanBackend.mk _ (⟨node, r, blobs⟩ :: s.scans)).opened r)
          rw [hlength, opened_cons, if_pos rfl]
          exact .begins rfl
    | reScanForeignScan scan sorted =>
      rcases sorted with _ | ⟨⟩
      · exact .idle rfl
      · have hopen : 0 < s.opened scan.relid :=
          (opened_erase_self s.handoff henabled).symm ▸ Nat.succ_pos _
        show Moves scan.relid _ _
          ((((s.handoff.discard scan.relid).publish scan.relid scan.blobs).stack scan.relid).length, _)
        rw [Handoff.stack_publish_self, Handoff.stack_discard_self, List.length_cons, List.length_tail]
        exact .rescans rfl hopen
    | endForeignScan scan =>
      show Moves scan.relid _ (_, s.opened scan.relid)
        (((s.handoff.discard scan.relid).stack scan.relid).length, _)
      rw [opened_erase_self (s.handoff.discard scan.relid) henabled, Handoff.stack_discard_self,
        List.length_tail]
      exact .ends rfl
    | cutOff scan =>
      show Moves scan.relid _ (_, s.opened scan.relid) _
      rw [opened_erase_self s.handoff henabled]
      exact .cut (beq_self_eq_true scan.relid)
    | buildPlan r =>
      show Moves r _ _ (((s.handoff.takeUnique r).2.stack r).length, _)
      rw [Handoff.stack_takeUnique_self]
      exact .takes rfl
  · obtain ⟨hstack, hopened⟩ := h.frame hother
    rw [hstack, hopened]
    exact .idle (leaks_eq_false_of_ne hother)

/-- Without leaks the stack is not longer than the scans that are open. -/
theorem length_stack_le (run : Run HandoffStep .initial history s)
    (hleaks : ∀ e ∈ history, e.leaks relid = false) :
    (s.handoff.stack relid).length ≤ s.opened relid := by
  revert hleaks
  refine run.induct (I := fun history s => (∀ e ∈ history, e.leaks relid = false) →
    (s.handoff.stack relid).length ≤ s.opened relid) (fun _ => Nat.le_refl 0) ?_
  intro history s e s' ih hstep hleaks
  have hlength := ih fun e he => hleaks e (List.mem_append_left _ he)
  have hlast := hleaks e (by simp)
  have hmoves := hstep.moves relid
  generalize (s.handoff.stack relid).length = len, s.opened relid = opened,
    (s'.handoff.stack relid).length = len', s'.opened relid = opened' at *
  cases hmoves with
  | idle | begins | rescans | ends | takes => omega
  | leaksEntry htrue | cut htrue => exact absurd (hlast.symm.trans htrue) nofun

/-- Without a take the stack has an entry for each open scan and for each scan that leaked. -/
theorem length_stack_eq (run : Run HandoffStep .initial history s)
    (htakes : ∀ e ∈ history, e ≠ .buildPlan relid) :
    (s.handoff.stack relid).length = s.opened relid + history.countP (·.leaks relid) := by
  revert htakes
  refine run.induct (I := fun history s => (∀ e ∈ history, e ≠ .buildPlan relid) →
    (s.handoff.stack relid).length = s.opened relid + history.countP (·.leaks relid)) (fun _ => rfl) ?_
  intro history s e s' ih hstep htakes
  have hlength := ih fun e he => htakes e (List.mem_append_left _ he)
  have hlast := htakes e (by simp)
  have hmoves := hstep.moves relid
  rw [List.countP_append, List.countP_singleton]
  generalize (s.handoff.stack relid).length = len, s.opened relid = opened,
    (s'.handoff.stack relid).length = len', s'.opened relid = opened' at *
  cases hmoves with
  | idle hleaks | begins hleaks | rescans hleaks | ends hleaks =>
    rw [hleaks, if_neg Bool.false_ne_true]
    omega
  | leaksEntry hleaks | cut hleaks =>
    rw [hleaks, if_pos rfl]
    omega
  | takes htake => exact absurd htake hlast

/-- Events of other tables leave the stack of this one. -/
theorem stack_eq_of_run (run : Run HandoffStep s history s') (hother : ∀ e ∈ history, e.relid ≠ relid) :
    s'.handoff.stack relid = s.handoff.stack relid := by
  revert hother
  refine run.induct (I := fun history s' => (∀ e ∈ history, e.relid ≠ relid) →
    s'.handoff.stack relid = s.handoff.stack relid) (fun _ => rfl) ?_
  intro history s₁ e s₂ ih hstep hother
  rw [(hstep.frame (hother e (by simp))).1]
  exact ih fun e he => hother e (List.mem_append_left _ he)

/-- **The hand-off to a later UPDATE or DELETE.**  After any history of a backend, when no scan of
the table is open, the scan of the statement begins, and scans of other tables may begin before
`build_plan`.  The statement gets its own list when no scan of the table was cut off before; and
if the history is one of scans only, not when one was. -/
theorem handoff_undisturbed_iff {more : List HandoffEvent} {node : ℕ} {blobs : List ListedBlob}
    (run : Run HandoffStep .initial history s) (hclosed : ∀ scan ∈ s.scans, scan.relid ≠ relid)
    (rest : Run HandoffStep (s.apply (.beginForeignScan node relid (.ok blobs) (.ok ()))) more s')
    (hmore : ∀ e ∈ more, e.relid ≠ relid) :
    ((∀ e ∈ history, e.leaks relid = false) → s'.handoff.planBlobs relid = .ok blobs) ∧
      ((∀ e ∈ history, e ≠ .buildPlan relid) →
        (s'.handoff.planBlobs relid = .ok blobs ↔ ∀ e ∈ history, e.leaks relid = false)) := by
  have hopened : s.opened relid = 0 := by
    rw [ScanBackend.opened, List.countP_eq_zero]
    intro scan hscan
    rw [beq_iff_eq]
    exact hclosed scan hscan
  have hstack : s'.handoff.planBlobs relid = .ok blobs ↔ (s.handoff.stack relid).length = 0 := by
    rw [Handoff.planBlobs_eq_ok_iff, stack_eq_of_run rest hmore, List.length_eq_zero_iff]
    show (s.handoff.publish relid blobs).stack relid = [blobs] ↔ _
    rw [Handoff.stack_publish_self, List.cons_eq_cons]
    exact and_iff_right rfl
  constructor
  · intro hleaks
    have hle := length_stack_le run hleaks
    exact hstack.mpr (by omega)
  · intro htakes
    rw [hstack, length_stack_eq run htakes, hopened, Nat.zero_add, List.countP_eq_zero]
    simp only [Bool.not_eq_true]

end Runs

/-- The scan of a SELECT, and its start. -/
def selectScan : OpenScan := ⟨1, 16384, [("a", "0x1")]⟩

def selectBegins : HandoffEvent := .beginForeignScan 1 16384 (.ok [("a", "0x1")]) (.ok ())

/-- The scan of an UPDATE begins, after another writer. -/
def updateBegins : HandoffEvent := .beginForeignScan 2 16384 (.ok [("a", "0x2")]) (.ok ())

/-- A SELECT that is rescanned and ended leaves the hand-off as it was. -/
theorem update_after_select :
    ((((ScanBackend.initial.apply selectBegins).apply (.reScanForeignScan selectScan (.ok ()))).apply
      (.endForeignScan selectScan)).apply updateBegins).handoff.planBlobs 16384 =
        .ok [("a", "0x2")] := by
  have run : Run HandoffStep .initial [selectBegins, .reScanForeignScan selectScan (.ok ()),
      .endForeignScan selectScan] _ :=
    .cons ⟨trivial, rfl⟩ (.cons ⟨List.mem_cons_self, rfl⟩ (.cons ⟨List.mem_cons_self, rfl⟩ .nil))
  exact (handoff_undisturbed_iff run nofun .nil nofun).1 (by decide)

/-- **A SELECT that an error cuts off makes the next UPDATE fail.** -/
theorem update_after_cut_off_select :
    ∃ s, Run HandoffStep .initial [selectBegins, .cutOff selectScan] s ∧ s.scans = [] ∧
      (s.apply updateBegins).handoff.planBlobs 16384 =
        .error (.schemaMismatch ("ambiguous scan_handoff for relid 16384: 2 concurrent scans of the " ++
          "same foreign table in one statement (e.g. a self-referential UPDATE). v1 does not yet " ++
          "match the modify subtree to its driving scan; rewrite the query so the source rows come " ++
          "from a non-foreign source (CTE, materialised subquery) or use two distinct foreign " ++
          "tables over the same data")) := by
  refine ⟨_, .cons ⟨trivial, rfl⟩ (.cons ⟨List.mem_cons_self, rfl⟩ .nil), rfl, ?_⟩
  decide +kernel

end ParquetAzureFdw
