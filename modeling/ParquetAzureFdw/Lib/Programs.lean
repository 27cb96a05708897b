/-
# Programs that make requests

A program is a tree: it returns, fails, or makes a request and goes on with the
reply.  What it may ask is judged against its own history, the list of its
requests with their replies: `wp allowed p h Q` says that `p`, started after `h`,
only makes requests that `allowed` accepts, and ends, with a result or an error,
as `Q` says.  It has the rules of a weakest precondition (`wp_bind`, `wp_mono`,
`wp_mapM`, `wp_forM`).

In a system of programs over a shared world, requests of all of them and steps of
an environment come in any order.  What each program keeps to on its own it keeps
to in every run (`Run.wp`), so that every request made in a run is one that its
program's history allows (`Run.request_allowed`).
-/

import Mathlib.Logic.Function.Basic
import Mathlib.Tactic
import ParquetAzureFdw.Lib.Runs

namespace Programs

variable {Op : Type}

/-- A program over the requests `Op`, with errors `ε`. -/
inductive Program (Reply : Op → Type) (ε α : Type) where
  | ret (a : α)
  | fail (e : ε)
  | request (op : Op) (next : Reply op → Program Reply ε α)

variable {Reply : Op → Type} {ε α β : Type}

namespace Program

/-- Sequencing: an error skips the rest. -/
def bind : Program Reply ε α → (α → Program Reply ε β) → Program Reply ε β
  | ret a, f => f a
  | fail e, _ => fail e
  | request op next, f => request op fun r => (next r).bind f

instance : Monad (Program Reply ε) where
  pure := ret
  bind := bind

/-- One request. -/
def call (op : Op) : Program Reply ε (Reply op) := request op ret

/-- A computation that makes no request. -/
def ofExcept : Except ε α → Program Reply ε α
  | .ok a => ret a
  | .error e => fail e

theorem bind_ret (p : Program Reply ε α) : p.bind ret = p := by
  induction p with
  | ret a => rfl
  | fail e => rfl
  | request op next ih => exact congrArg (request op) (funext ih)

theorem bind_assoc {γ : Type} (p : Program Reply ε α) (f : α → Program Reply ε β)
    (g : β → Program Reply ε γ) : (p.bind f).bind g = p.bind fun a => (f a).bind g := by
  induction p with
  | ret a => rfl
  | fail e => rfl
  | request op next ih => exact congrArg (request op) (funext ih)

instance : LawfulMonad (Program Reply ε) :=
  LawfulMonad.mk' _ bind_ret (fun _ _ => rfl) bind_assoc

end Program

/-- A request and its reply. -/
abbrev Event (Reply : Op → Type) := (op : Op) × Reply op

/-! ### Weakest preconditions -/

section Wp

variable (allowed : List (Event Reply) → Op → Prop)

/-- From the history `h` the program makes only allowed requests, and ends as `Q` says. -/
def wp (p : Program Reply ε α) (h : List (Event Reply))
    (Q : List (Event Reply) → Except ε α → Prop) : Prop :=
  match p with
  | .ret a => Q h (.ok a)
  | .fail e => Q h (.error e)
  | .request op next => allowed h op ∧ ∀ r, wp (next r) (h ++ [⟨op, r⟩]) Q

variable {allowed} {h : List (Event Reply)}

theorem wp_mono {p : Program Reply ε α} {Q Q' : List (Event Reply) → Except ε α → Prop}
    (hp : wp allowed p h Q) (hQ : ∀ h' r, h <+: h' → Q h' r → Q' h' r) : wp allowed p h Q' := by
  induction p generalizing h with
  | ret a => exact hQ h _ (List.prefix_refl h) hp
  | fail e => exact hQ h _ (List.prefix_refl h) hp
  | request op next ih =>
    refine ⟨hp.1, fun r => ih r (hp.2 r) fun h' r' hpre => hQ h' r' ?_⟩
    exact (List.prefix_append h _).trans hpre

/-- What is allowed more often. -/
theorem wp_allowed {allowed' : List (Event Reply) → Op → Prop} {p : Program Reply ε α}
    {Q : List (Event Reply) → Except ε α → Prop} (hp : wp allowed p h Q)
    (himp : ∀ h op, allowed h op → allowed' h op) : wp allowed' p h Q := by
  induction p generalizing h with
  | ret a => exact hp
  | fail e => exact hp
  | request op next ih => exact ⟨himp h op hp.1, fun r => ih r (hp.2 r)⟩

/-- A sequence: the second program starts where the first ended. -/
theorem wp_bind {p : Program Reply ε α} {f : α → Program Reply ε β}
    {Q : List (Event Reply) → Except ε α → Prop} {R : List (Event Reply) → Except ε β → Prop}
    (hp : wp allowed p h Q) (herror : ∀ h' e, Q h' (.error e) → R h' (.error e))
    (hf : ∀ h' a, h <+: h' → Q h' (.ok a) → wp allowed (f a) h' R) : wp allowed (p >>= f) h R := by
  induction p generalizing h with
  | ret a => exact hf h a (List.prefix_refl h) hp
  | fail e => exact herror h e hp
  | request op next ih =>
    refine ⟨hp.1, fun r => ih r (hp.2 r) fun h' a hpre => hf h' a ?_⟩
    exact (List.prefix_append h _).trans hpre

/-- A request, and what is done with the reply. -/
theorem wp_call_bind {op : Op} {f : Reply op → Program Reply ε α}
    {Q : List (Event Reply) → Except ε α → Prop} (hallowed : allowed h op)
    (hf : ∀ r, wp allowed (f r) (h ++ [⟨op, r⟩]) Q) : wp allowed (Program.call op >>= f) h Q :=
  ⟨hallowed, hf⟩

theorem wp_ofExcept {x : Except ε α} {Q : List (Event Reply) → Except ε α → Prop} (hQ : Q h x) :
    wp allowed (Program.ofExcept x) h Q := by
  cases x with
  | ok a => exact hQ
  | error e => exact hQ

/-- A loop that collects results: each is found as it should be, and what was found stays
true of longer histories. -/
theorem wp_mapM {f : α → Program Reply ε β} {P : List (Event Reply) → α → β → Prop}
    (hmono : ∀ h h' a b, h <+: h' → P h a b → P h' a b) {l : List α}
    (hf : ∀ a ∈ l, ∀ h, wp allowed (f a) h fun h' r => ∀ b, r = .ok b → P h' a b) :
    wp allowed (l.mapM f) h fun h' r => ∀ bs, r = .ok bs → List.Forall₂ (P h') l bs := by
  induction l generalizing h with
  | nil =>
    rintro bs hbs
    obtain rfl : [] = bs := Except.ok.inj hbs
    exact .nil
  | cons a l ih =>
    rw [List.mapM_cons]
    refine wp_bind (hf a (by simp) h) (fun h' e _ bs hbs => by cases hbs) fun h₁ b _ hb => ?_
    refine wp_bind (ih fun a' ha' => hf a' (by simp [ha'])) (fun h' e _ bs hbs => by cases hbs)
      fun h₂ bs hpre hbs => ?_
    rintro bs' hbs'
    obtain rfl : b :: bs = bs' := Except.ok.inj hbs'
    exact .cons (hmono h₁ h₂ a b hpre (hb b rfl)) (hbs bs rfl)

/-- A loop that collects nothing: each round starts from `P` and ends in `R`, and both stay
true of longer histories. -/
theorem wp_forM {f : α → Program Reply ε PUnit} {P R : List (Event Reply) → α → Prop}
    (hP : ∀ h h' a, h <+: h' → P h a → P h' a) (hR : ∀ h h' a, h <+: h' → R h a → R h' a)
    (hf : ∀ a h, P h a → wp allowed (f a) h fun h' r => ∀ u, r = .ok u → R h' a) {l : List α}
    (hl : ∀ a ∈ l, P h a) :
    wp allowed (l.forM f) h fun h' r => ∀ u, r = .ok u → ∀ a ∈ l, R h' a := by
  induction l generalizing h with
  | nil => exact fun _ _ a ha => by simp at ha
  | cons a l ih =>
    refine wp_bind (hf a h (hl a (by simp))) (fun _ _ _ u hu => by cases hu) fun h' u hpre ha => ?_
    refine wp_mono (ih fun a' ha' => hP h h' a' hpre (hl a' (by simp [ha']))) ?_
    intro h'' r hpre' hall u' hu' a' ha'
    rcases List.mem_cons.mp ha' with rfl | ha'
    · exact hR h' h'' a' hpre' (ha u rfl)
    · exact hall u' hu' a' ha'

end Wp

/-! ### Programs side by side -/

/-- Programs over a shared world. -/
structure System (ι W : Type) (Reply : Op → Type) (ε α : Type) where
  world : W
  procs : ι → Program Reply ε α

/-- What happens in a system: a request of one program with its reply, or something else. -/
inductive Label (ι : Type) (Reply : Op → Type) where
  | request (i : ι) (event : Event Reply)
  | other

/-- The part of a list of labels that is the history of one program. -/
def history {ι : Type} [DecidableEq ι] (i : ι) (ls : List (Label ι Reply)) : List (Event Reply) :=
  ls.filterMap fun
    | .request j event => if j = i then some event else none
    | .other => none

section Interleaving

variable {ι W : Type} [DecidableEq ι] (answers : ι → W → Event Reply → W → Prop)
  (other : W → W → Prop)

/-- One step of a system: the world answers a request, or changes by itself. -/
inductive Step : System ι W Reply ε α → Label ι Reply → System ι W Reply ε α → Prop
  | request {w w' : W} {ps : ι → Program Reply ε α} {i : ι} {op : Op}
      {next : Reply op → Program Reply ε α} {r : Reply op} (hproc : ps i = .request op next)
      (hanswer : answers i w ⟨op, r⟩ w') :
      Step ⟨w, ps⟩ (.request i ⟨op, r⟩) ⟨w', Function.update ps i (next r)⟩
  | other {w w' : W} {ps : ι → Program Reply ε α} (h : other w w') : Step ⟨w, ps⟩ .other ⟨w', ps⟩

variable {answers other} {allowed : ι → List (Event Reply) → Op → Prop}
  {Q : ι → List (Event Reply) → Except ε α → Prop} {init s s' : System ι W Reply ε α}
  {ls : List (Label ι Reply)}

theorem history_concat_request (i j : ι) (event : Event Reply) :
    history i (ls ++ [.request j event]) =
      if j = i then history i ls ++ [event] else history i ls := by
  rw [history, List.filterMap_append]
  split_ifs with h <;> simp [h, history]

theorem history_concat_other (i : ι) : history i (ls ++ [.other]) = history i ls := by
  rw [history, List.filterMap_append]
  simp [history]

/-- **What each program keeps to alone, it keeps to in every run.** -/
theorem Run.wp (run : Runs.Run (Step answers other) init ls s)
    (hinit : ∀ i, Programs.wp (allowed i) (init.procs i) [] (Q i)) (i : ι) :
    Programs.wp (allowed i) (s.procs i) (history i ls) (Q i) := by
  induction run with
  | nil => exact hinit i
  | snoc run next ih =>
    cases next with
    | other _ =>
      rw [history_concat_other]
      exact ih
    | @request w w' ps j op next r hproc _ =>
      rw [history_concat_request]
      by_cases hji : j = i
      · subst hji
        have hwp : Programs.wp (allowed j) (ps j) (history j _) (Q j) := ih
        rw [hproc] at hwp
        simpa using hwp.2 r
      · rw [if_neg hji]
        simpa [Function.update_of_ne (Ne.symm hji)] using ih

/-- **Every request made in a run is allowed by the history of its program.** -/
theorem Run.request_allowed (run : Runs.Run (Step answers other) init ls s)
    (hinit : ∀ i, Programs.wp (allowed i) (init.procs i) [] (Q i)) {i : ι} {event : Event Reply}
    (next : Step answers other s (.request i event) s') :
    allowed i (history i ls) event.1 := by
  have hwp := Run.wp run hinit i
  cases next with
  | request hproc _ =>
    rw [show System.procs _ i = _ from hproc] at hwp
    exact hwp.1

end Interleaving

end Programs
