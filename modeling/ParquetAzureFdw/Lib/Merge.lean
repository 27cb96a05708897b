/-
# Merging many sources

Sources that are lists of rows.  A merge takes a row that is least among the first rows left of
the sources, and goes on; it stops at a row that is below the last one taken.  Nothing is said
of how ties are broken.

Whatever the sources, the rows taken are in order, and those of one source are a first part of
that source (`Merging.Invariant`).  A merge that stops at a row has found a source that is not in
order (`Invariant.unordered`): while a row is the first of its source, only rows that are not
above it are taken, so that only its own predecessor can be above it.  One that runs out of
rows has taken all of them, and then every source is in order (`Invariant.ordered_of_empty`).

A priority queue is what a merge needs of a heap (`PriorityQueue`).
-/

import Mathlib.Data.List.Basic
import Mathlib.Data.List.Flatten
import Mathlib.Data.List.Sort
import Mathlib.Tactic
import ParquetAzureFdw.Lib.Runs

namespace Merging

/-- A queue whose `pop` takes a least element. -/
structure PriorityQueue (α : Type) (le : α → α → Prop) where
  Carrier : Type
  empty : Carrier
  push : Carrier → α → Carrier
  pop : Carrier → Option (α × Carrier)
  elems : Carrier → List α
  elems_empty : elems empty = []
  elems_push : ∀ q a, (elems (push q a)).Perm (a :: elems q)
  elems_of_pop_none : ∀ q, pop q = none → elems q = []
  elems_pop : ∀ q a q', pop q = some (a, q') → (elems q).Perm (a :: elems q') ∧ ∀ b ∈ elems q, le a b

/-- The queue that keeps its elements in order. -/
def sortedQueue {α : Type} (le : α → α → Prop) [DecidableRel le] [Std.Total le] [IsTrans α le] :
    PriorityQueue α le where
  Carrier := { l : List α // l.Pairwise le }
  empty := ⟨[], .nil⟩
  push q a := ⟨q.1.orderedInsert le a, q.2.orderedInsert a q.1⟩
  pop q := match q with
    | ⟨[], _⟩ => none
    | ⟨a :: l, h⟩ => some (a, ⟨l, h.of_cons⟩)
  elems q := q.1
  elems_empty := rfl
  elems_push q a := q.1.perm_orderedInsert le a
  elems_of_pop_none q h := by
    match q with
    | ⟨[], _⟩ => rfl
  elems_pop q a q' h := by
    match q with
    | ⟨b :: l, hsorted⟩ =>
      obtain ⟨rfl, rfl⟩ := Prod.mk.inj (Option.some.inj h)
      refine ⟨.refl _, fun c hc => ?_⟩
      rcases List.mem_cons.mp hc with rfl | hc
      · exact (Std.Total.total c c).elim id id
      · exact List.rel_of_pairwise_cons hsorted hc

section Steps

variable {ι R : Type} [DecidableEq ι] (le : R → R → Prop)

/-- What is left of each source, and the last row taken. -/
structure State (ι R : Type) where
  left : ι → List R
  last : Option R

/-- The row is the first one left of its source, and no other first row is below it. -/
structure Least (s : State ι R) (i : ι) (x : R) : Prop where
  head : (s.left i).head? = some x
  le_head : ∀ j y, (s.left j).head? = some y → le x y

/-- The row is not below the last one taken. -/
def State.Follows (s : State ι R) (x : R) : Prop := ∀ y, s.last = some y → le y x

/-- One row is taken. -/
inductive Step : State ι R → ι × R → State ι R → Prop
  | take {s : State ι R} {i : ι} {x : R} (hleast : Least le s i x) (hfollows : s.Follows le x) :
      Step s (i, x) ⟨Function.update s.left i (s.left i).tail, some x⟩

/-- The rows of a source among those taken. -/
def ofSource (i : ι) (taken : List (ι × R)) : List R :=
  (taken.filter fun p => p.1 = i).map Prod.snd

/-- The state of a merge of `rows`, after the rows `taken`. -/
structure Invariant (rows : ι → List R) (taken : List (ι × R)) (s : State ι R) : Prop where
  split : ∀ i, rows i = ofSource i taken ++ s.left i
  last : s.last = taken.getLast?.map Prod.snd
  ordered : taken.Pairwise fun p q => le p.2 q.2
  /-- A first row is not below the last one taken, or comes right after it in its source. -/
  first : ∀ i x, (s.left i).head? = some x → s.Follows le x ∨
    ∃ y, s.last = some y ∧ ∃ before after, rows i = before ++ y :: x :: after

end Steps

section Merge

variable {ι R : Type} [DecidableEq ι] {le : R → R → Prop} {rows : ι → List R}
  {taken : List (ι × R)} {s s' : State ι R}

theorem ofSource_concat (j : ι) (p : ι × R) :
    ofSource j (taken ++ [p]) = ofSource j taken ++ if p.1 = j then [p.2] else [] := by
  by_cases h : p.1 = j <;> simp [ofSource, h]

/-- At the start. -/
theorem invariant_initial : Invariant le rows [] ⟨rows, none⟩ where
  split i := by simp [ofSource]
  last := rfl
  ordered := .nil
  first i x hx := .inl nofun

/-- No row taken is above one that follows. -/
theorem Invariant.le_of_follows [IsTrans R le] {x : R} (h : Invariant le rows taken s)
    (hfollows : s.Follows le x) : ∀ p ∈ taken, le p.2 x := by
  intro p hp
  obtain ⟨init, z, rfl⟩ := (List.eq_nil_or_concat' taken).resolve_left (List.ne_nil_of_mem hp)
  have hz : le z.2 x := hfollows z.2 (by simp [h.last])
  rcases List.mem_append.mp hp with hp | hp
  · exact trans_of le ((List.pairwise_append.mp h.ordered).2.2 p hp z (by simp)) hz
  · rwa [List.mem_singleton.mp hp]

/-- One row. -/
theorem Invariant.step [IsTrans R le] {p : ι × R} (h : Invariant le rows taken s)
    (hstep : Step le s p s') : Invariant le rows (taken ++ [p]) s' := by
  cases hstep with
  | @take i x hleast hfollows =>
    obtain ⟨xs, hxs⟩ : ∃ xs, s.left i = x :: xs := List.head?_eq_some_iff.mp hleast.head
    have hleft : ∀ j, Function.update s.left i (s.left i).tail j =
        if j = i then xs else s.left j := by
      intro j
      by_cases hj : j = i
      · subst hj
        simp [hxs]
      · simp [hj]
    refine ⟨fun j => ?_, by simp, ?_, fun j y hy => ?_⟩
    · rw [ofSource_concat, h.split j]
      simp only [hleft]
      by_cases hj : j = i
      · subst hj
        simp [hxs]
      · simp [hj, Ne.symm hj]
    · refine List.pairwise_append.mpr ⟨h.ordered, List.pairwise_singleton _ _, fun q hq r hr => ?_⟩
      rw [List.mem_singleton.mp hr]
      exact h.le_of_follows hfollows q hq
    · simp only [hleft] at hy
      by_cases hj : j = i
      · -- the next row of the source comes right after the one taken
        subst hj
        rw [if_pos rfl] at hy
        obtain ⟨after, rfl⟩ := List.head?_eq_some_iff.mp hy
        refine .inr ⟨x, rfl, ofSource j taken, after, ?_⟩
        rw [h.split j, hxs]
      · rw [if_neg hj] at hy
        refine .inl ?_
        rintro z hz
        obtain rfl := Option.some.inj hz
        exact hleast.le_head j y hy

/-- **The rows taken in a run.** -/
theorem invariant_of_run [IsTrans R le] (run : Runs.Run (Step le) ⟨rows, none⟩ taken s) :
    Invariant le rows taken s :=
  run.induct invariant_initial fun _ _ _ _ h hstep => h.step hstep

/-- **A merge that stops at a row has found a source that is not in order.** -/
theorem Invariant.unordered (h : Invariant le rows taken s) {i : ι} {x : R}
    (hhead : (s.left i).head? = some x) (hstop : ¬ s.Follows le x) : ¬ (rows i).IsChain le := by
  intro hchain
  obtain ⟨y, hy, before, after, hrows⟩ := (h.first i x hhead).resolve_left hstop
  rw [hrows, List.isChain_append_cons_cons] at hchain
  refine hstop fun z hz => ?_
  rw [← Option.some.inj (hy.symm.trans hz)]
  exact hchain.2.1

/-- **A merge that runs out of rows has taken all, and every source is in order.** -/
theorem Invariant.ordered_of_empty (h : Invariant le rows taken s) (hempty : ∀ i, s.left i = [])
    (i : ι) : rows i = ofSource i taken ∧ (rows i).IsChain le := by
  have hall : rows i = ofSource i taken := by rw [h.split i, hempty i, List.append_nil]
  have hsub : (taken.filter fun p => p.1 = i).Pairwise fun p q => le p.2 q.2 :=
    h.ordered.sublist List.filter_sublist
  refine ⟨hall, List.Pairwise.isChain ?_⟩
  rw [hall]
  exact List.pairwise_map.mpr hsub

/-- The rows taken, source by source. -/
theorem perm_flatMap_ofSource {sources : List ι} (hnodup : sources.Nodup)
    (hmem : ∀ p ∈ taken, p.1 ∈ sources) :
    (taken.map Prod.snd).Perm (sources.flatMap fun i => ofSource i taken) := by
  induction sources generalizing taken with
  | nil => simp [List.eq_nil_iff_forall_not_mem.mpr fun p hp => List.not_mem_nil (hmem p hp)]
  | cons i sources ih =>
    obtain ⟨hi, hnodup⟩ := List.nodup_cons.mp hnodup
    -- the rows of the other sources, among which the rest finds its own
    have hothers : ∀ p ∈ taken.filter fun p => ¬ p.1 = i, p.1 ∈ sources := by
      intro p hp
      obtain ⟨hp, hne⟩ := List.mem_filter.mp hp
      exact (List.mem_cons.mp (hmem p hp)).resolve_left (of_decide_eq_true hne)
    have hrest := ih hnodup hothers
    have hsame : (sources.flatMap fun j => ofSource j (taken.filter fun p => ¬ p.1 = i)) =
        sources.flatMap fun j => ofSource j taken := by
      refine List.flatMap_congr fun j hj => ?_
      rw [ofSource, List.filter_filter, ofSource]
      congr 1
      refine List.filter_congr fun p _ => ?_
      have hne : p.1 = j → ¬ p.1 = i := fun h h' => hi (h'.symm.trans h ▸ hj)
      by_cases h : p.1 = j
      · simp [h, h ▸ hne h]
      · simp [h]
    rw [List.flatMap_cons, ← hsame]
    refine List.Perm.trans ?_ (hrest.append_left _)
    rw [ofSource, ← List.map_append]
    refine List.Perm.map _ ?_
    simpa using (List.filter_append_perm (fun p : ι × R => decide (p.1 = i)) taken).symm

/-- Each step leaves one row less. -/
theorem Step.sum_length_lt {p : ι × R} (hstep : Step le s p s') {sources : Finset ι}
    (hp : p.1 ∈ sources) :
    ∑ i ∈ sources, (s'.left i).length < ∑ i ∈ sources, (s.left i).length := by
  cases hstep with
  | @take i x hleast hfollows =>
    obtain ⟨xs, hxs⟩ : ∃ xs, s.left i = x :: xs := List.head?_eq_some_iff.mp hleast.head
    refine Finset.sum_lt_sum (fun j _ => ?_) ⟨i, hp, by simp [hxs]⟩
    by_cases hj : j = i
    · subst hj
      simp
    · simp [hj]

end Merge

end Merging
