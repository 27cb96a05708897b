/-
# Runs of a transition system

A system is a relation `step s l s'`: from state `s` it can do `l` and be in
state `s'`.  A run from a state is the list of what was done, oldest first, and
the state it ends in.  An invariant may speak of both (`Run.induct`): what holds
of the empty run and is kept by each step holds of every run.  Two uses of it
have names: an invariant of the states alone (`Run.invariant`), and a property of
each thing done, given one (`Run.forall_mem`).

A system that can answer each step of another has a run for each of its runs
(`Run.simulate`), and if it leaves no choice, that is its only run of this length
(`Run.unique`).  Where each step lowers a number, runs are no longer than it
(`Run.length_le`), and a system that only stops where it is done gets there
(`Run.exists_done`).
-/

import Mathlib.Data.List.Forall2

namespace Runs

variable {S L : Type}

/-- The runs of `step` from `init`. -/
inductive Run (step : S → L → S → Prop) (init : S) : List L → S → Prop
  | nil : Run step init [] init
  | snoc {ls : List L} {s s' : S} {l : L} (run : Run step init ls s) (next : step s l s') :
      Run step init (ls ++ [l]) s'

variable {step : S → L → S → Prop} {init s s' : S} {ls ls' : List L}

/-- One step at the start of a run. -/
theorem Run.cons {l : L} (h : step init l s) (run : Run step s ls s') :
    Run step init (l :: ls) s' := by
  induction run with
  | nil => exact Run.snoc Run.nil h
  | snoc run next ih => exact ih.snoc next

/-- A run of a smaller relation. -/
theorem Run.mono {step' : S → L → S → Prop} (run : Run step init ls s)
    (h : ∀ s l s', step s l s' → step' s l s') : Run step' init ls s := by
  induction run with
  | nil => exact Run.nil
  | snoc run next ih => exact ih.snoc (h _ _ _ next)

/-- Induction on a run, over what was done and the state it leads to. -/
theorem Run.induct {I : List L → S → Prop} (run : Run step init ls s) (hinit : I [] init)
    (hstep : ∀ ls s l s', I ls s → step s l s' → I (ls ++ [l]) s') : I ls s := by
  induction run with
  | nil => exact hinit
  | snoc run next ih => exact hstep _ _ _ _ ih next

/-- What every step keeps holds at the end of a run. -/
theorem Run.invariant {I : S → Prop} (run : Run step init ls s) (hinit : I init)
    (hstep : ∀ s l s', I s → step s l s' → I s') : I s :=
  run.induct (I := fun _ s => I s) hinit fun _ s l s' => hstep s l s'

/-- What every step from a state with the invariant does. -/
theorem Run.forall_mem {I : S → Prop} {P : L → Prop} (run : Run step init ls s) (hinit : I init)
    (hstep : ∀ s l s', I s → step s l s' → I s' ∧ P l) : ∀ l ∈ ls, P l := by
  refine (run.induct (I := fun ls s => I s ∧ ∀ l ∈ ls, P l) ⟨hinit, by simp⟩ ?_).2
  rintro ls s l s' ⟨hI, hP⟩ hnext
  obtain ⟨hI', hPl⟩ := hstep s l s' hI hnext
  refine ⟨hI', fun l' hl' => ?_⟩
  rcases List.mem_append.mp hl' with hl' | hl'
  · exact hP l' hl'
  · exact List.mem_singleton.mp hl' ▸ hPl

section Simulation

variable {S' L' : Type} {step' : S' → L' → S' → Prop} {init' : S'}

/-- A forward simulation: `R` relates the states, `Q` what is done. -/
theorem Run.simulate {R : S → S' → Prop} {Q : L → L' → Prop} (run : Run step init ls s)
    (hinit : R init init')
    (hstep : ∀ s t l s', R s t → step s l s' → ∃ l' t', step' t l' t' ∧ Q l l' ∧ R s' t') :
    ∃ ls' t, Run step' init' ls' t ∧ List.Forall₂ Q ls ls' ∧ R s t := by
  induction run with
  | nil => exact ⟨[], init', .nil, .nil, hinit⟩
  | snoc run next ih =>
    obtain ⟨ls', t, run', hls, hs⟩ := ih
    obtain ⟨l', t', hnext, hl, hs'⟩ := hstep _ _ _ _ hs next
    exact ⟨ls' ++ [l'], t', run'.snoc hnext, List.rel_append hls (.cons hl .nil), hs'⟩

end Simulation

/-- Runs of one length, when each state has one step. -/
theorem Run.unique (hfun : ∀ s l l' t t', step s l t → step s l' t' → l = l' ∧ t = t')
    (run : Run step init ls s) (run' : Run step init ls' s') (hlength : ls.length = ls'.length) :
    ls = ls' ∧ s = s' := by
  induction run generalizing ls' s' with
  | nil =>
    cases run' with
    | nil => exact ⟨rfl, rfl⟩
    | snoc => simp at hlength
  | snoc run next ih =>
    cases run' with
    | nil => simp at hlength
    | snoc run' next' =>
      obtain ⟨rfl, rfl⟩ := ih run' (by simpa using hlength)
      obtain ⟨rfl, rfl⟩ := hfun _ _ _ _ _ next next'
      exact ⟨rfl, rfl⟩

section Measure

variable {I : S → Prop} {m : S → ℕ}

/-- A run in which each step lowers a number. -/
theorem Run.length_le (run : Run step init ls s) (hinit : I init)
    (hstep : ∀ s l s', I s → step s l s' → I s' ∧ m s' < m s) :
    I s ∧ ls.length + m s ≤ m init := by
  refine run.induct (I := fun ls s => I s ∧ ls.length + m s ≤ m init) ⟨hinit, by simp⟩ ?_
  rintro ls s l s' ⟨hI, hlength⟩ hnext
  obtain ⟨hI', hlt⟩ := hstep s l s' hI hnext
  refine ⟨hI', ?_⟩
  rw [List.length_append, List.length_singleton]
  omega

/-- A system in which each step lowers a number, and that can go on unless it is done. -/
theorem Run.exists_done {done : S → Prop}
    (hstep : ∀ s l s', I s → step s l s' → I s' ∧ m s' < m s)
    (hnext : ∀ s, I s → ¬ done s → ∃ l s', step s l s') (hs : I s) :
    ∃ ls s', Run step s ls s' ∧ done s' := by
  induction hm : m s using Nat.strongRecOn generalizing s with
  | ind k ih =>
    by_cases hdone : done s
    · exact ⟨[], s, .nil, hdone⟩
    · obtain ⟨l, t, hl⟩ := hnext s hs hdone
      obtain ⟨ht, hlt⟩ := hstep s l t hs hl
      obtain ⟨ls, s', run, hs'⟩ := ih (m t) (hm ▸ hlt) ht rfl
      exact ⟨l :: ls, s', run.cons hl, hs'⟩

end Measure

end Runs
