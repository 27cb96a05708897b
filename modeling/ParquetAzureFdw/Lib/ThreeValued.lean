/-
# Three-valued logic, strict and Kleene

A truth value is `some true`, `some false` or `none`, the unknown.  Two families
of connectives act on it.  The **Kleene** ones (`and`, `or`, `all`, `any`) are
those of SQL: a false conjunct, or a true disjunct, decides whatever else is
unknown.  The **strict** ones (`strict op`) are those of columnar compute
kernels: one unknown operand makes the result unknown.

Negation is common to both.  Wherever a strict result is known, it is the Kleene
result (`all_of_strictList`, `any_of_strictList`); the strict result is unknown
exactly when an operand is (`strictList_eq_none`).
-/

import Mathlib.Data.List.Forall2
import Mathlib.Data.Option.NAry

namespace ThreeValued

/-- A truth value: `none` is the unknown of SQL. -/
abbrev Truth := Option Bool

/-- Negation: unknown stays unknown. -/
def Truth.not (a : Truth) : Truth := a.map (!·)

/-- Kleene conjunction. -/
def Truth.and : Truth → Truth → Truth
  | some false, _ => some false
  | _, some false => some false
  | some true, b => b
  | a, some true => a
  | none, none => none

/-- Kleene disjunction. -/
def Truth.or : Truth → Truth → Truth
  | some true, _ => some true
  | _, some true => some true
  | some false, b => b
  | a, some false => a
  | none, none => none

/-- Kleene conjunction of a list. -/
def all (l : List Truth) : Truth := l.foldr Truth.and (some true)

/-- Kleene disjunction of a list. -/
def any (l : List Truth) : Truth := l.foldr Truth.or (some false)

/-- A connective that is unknown as soon as one operand is. -/
def strict (op : Bool → Bool → Bool) (a b : Truth) : Truth := Option.map₂ op a b

/-- The left fold of a strict connective over a nonempty list, from its first operand. -/
def strictFold (op : Bool → Bool → Bool) (a : Truth) (l : List Truth) : Truth :=
  l.foldl (strict op) a

/-- A strict connective over a list, with its value on the empty list. -/
def strictList (op : Bool → Bool → Bool) (unit : Bool) : List Truth → Truth
  | [] => some unit
  | a :: l => strictFold op a l

/-! ### Kleene connectives -/

@[simp] theorem Truth.not_none : Truth.not none = none := rfl

@[simp] theorem Truth.not_some (b : Bool) : Truth.not (some b) = some (!b) := rfl

@[simp] theorem Truth.not_not (a : Truth) : a.not.not = a := by
  rcases a with _ | _ | _ <;> rfl

theorem Truth.not_eq_some {a : Truth} {b : Bool} : a.not = some b ↔ a = some (!b) := by
  rcases a with _ | _ | _ <;> cases b <;> simp

@[simp] theorem Truth.and_true (a : Truth) : a.and (some true) = a := by
  rcases a with _ | _ | _ <;> rfl

@[simp] theorem Truth.or_false (a : Truth) : a.or (some false) = a := by
  rcases a with _ | _ | _ <;> rfl

theorem Truth.and_eq_true {a b : Truth} : a.and b = some true ↔ a = some true ∧ b = some true := by
  rcases a with _ | _ | _ <;> rcases b with _ | _ | _ <;> simp [Truth.and]

theorem Truth.and_eq_false {a b : Truth} : a.and b = some false ↔ a = some false ∨ b = some false := by
  rcases a with _ | _ | _ <;> rcases b with _ | _ | _ <;> simp [Truth.and]

theorem Truth.or_eq_true {a b : Truth} : a.or b = some true ↔ a = some true ∨ b = some true := by
  rcases a with _ | _ | _ <;> rcases b with _ | _ | _ <;> simp [Truth.or]

theorem Truth.or_eq_false {a b : Truth} : a.or b = some false ↔ a = some false ∧ b = some false := by
  rcases a with _ | _ | _ <;> rcases b with _ | _ | _ <;> simp [Truth.or]

theorem Truth.and_and (a b c : Truth) : (a.and b).and c = a.and (b.and c) := by
  rcases a with _ | _ | _ <;> rcases b with _ | _ | _ <;> rcases c with _ | _ | _ <;> rfl

theorem Truth.or_or (a b c : Truth) : (a.or b).or c = a.or (b.or c) := by
  rcases a with _ | _ | _ <;> rcases b with _ | _ | _ <;> rcases c with _ | _ | _ <;> rfl

/-- De Morgan, from conjunction to disjunction. -/
theorem Truth.not_and (a b : Truth) : (a.and b).not = a.not.or b.not := by
  rcases a with _ | _ | _ <;> rcases b with _ | _ | _ <;> rfl

/-- De Morgan, from disjunction to conjunction. -/
theorem Truth.not_or (a b : Truth) : (a.or b).not = a.not.and b.not := by
  rcases a with _ | _ | _ <;> rcases b with _ | _ | _ <;> rfl

@[simp] theorem all_nil : all [] = some true := rfl

@[simp] theorem all_cons (a : Truth) (l : List Truth) : all (a :: l) = a.and (all l) := rfl

@[simp] theorem any_nil : any [] = some false := rfl

@[simp] theorem any_cons (a : Truth) (l : List Truth) : any (a :: l) = a.or (any l) := rfl

/-- A Kleene conjunction is true when every conjunct is. -/
theorem all_eq_true {l : List Truth} : all l = some true ↔ ∀ a ∈ l, a = some true := by
  induction l with
  | nil => simp
  | cons a l ih => simp [Truth.and_eq_true, ih]

/-- A Kleene conjunction is false when some conjunct is, whatever the others are. -/
theorem all_eq_false {l : List Truth} : all l = some false ↔ some false ∈ l := by
  induction l with
  | nil => simp
  | cons a l ih => rw [all_cons, Truth.and_eq_false, ih, List.mem_cons, eq_comm]

/-- A Kleene disjunction is true when some disjunct is, whatever the others are. -/
theorem any_eq_true {l : List Truth} : any l = some true ↔ some true ∈ l := by
  induction l with
  | nil => simp
  | cons a l ih => rw [any_cons, Truth.or_eq_true, ih, List.mem_cons, eq_comm]

/-- A Kleene disjunction is false when every disjunct is. -/
theorem any_eq_false {l : List Truth} : any l = some false ↔ ∀ a ∈ l, a = some false := by
  induction l with
  | nil => simp
  | cons a l ih => simp [Truth.or_eq_false, ih]

/-- A disjunction keeps a truth value that every disjunct keeps. -/
theorem any_of_forall₂ {b : Bool} {l m : List Truth}
    (h : List.Forall₂ (fun s t => s = some b → t = some b) l m) (hl : any l = some b) :
    any m = some b := by
  induction h with
  | nil => exact hl
  | cons hst _ ih =>
    rw [any_cons] at hl ⊢
    cases b with
    | true => exact Truth.or_eq_true.mpr ((Truth.or_eq_true.mp hl).imp hst ih)
    | false => exact Truth.or_eq_false.mpr ((Truth.or_eq_false.mp hl).imp hst ih)

/-- A conjunction keeps a truth value that every conjunct keeps. -/
theorem all_of_forall₂ {b : Bool} {l m : List Truth}
    (h : List.Forall₂ (fun s t => s = some b → t = some b) l m) (hl : all l = some b) :
    all m = some b := by
  induction h with
  | nil => exact hl
  | cons hst _ ih =>
    rw [all_cons] at hl ⊢
    cases b with
    | true => exact Truth.and_eq_true.mpr ((Truth.and_eq_true.mp hl).imp hst ih)
    | false => exact Truth.and_eq_false.mpr ((Truth.and_eq_false.mp hl).imp hst ih)

/-- De Morgan for lists. -/
theorem not_all (l : List Truth) : (all l).not = any (l.map Truth.not) := by
  induction l with
  | nil => rfl
  | cons a l ih => rw [all_cons, Truth.not_and, ih, List.map_cons, any_cons]

/-- De Morgan for lists. -/
theorem not_any (l : List Truth) : (any l).not = all (l.map Truth.not) := by
  induction l with
  | nil => rfl
  | cons a l ih => rw [any_cons, Truth.not_or, ih, List.map_cons, all_cons]

/-! ### Strict connectives -/

@[simp] theorem strictFold_nil (op : Bool → Bool → Bool) (a : Truth) : strictFold op a [] = a :=
  rfl

@[simp] theorem strictFold_cons (op : Bool → Bool → Bool) (a b : Truth) (l : List Truth) :
    strictFold op a (b :: l) = strictFold op (strict op a b) l := rfl

/-- A strict fold is unknown exactly when an operand is. -/
theorem strictFold_eq_none {op : Bool → Bool → Bool} {a : Truth} {l : List Truth} :
    strictFold op a l = none ↔ none ∈ a :: l := by
  induction l generalizing a with
  | nil => simp [eq_comm]
  | cons b l ih =>
    simp [ih, strict, Option.map₂_eq_none_iff, eq_comm (a := none), or_assoc]

theorem strictList_eq_none {op : Bool → Bool → Bool} {unit : Bool} {l : List Truth} :
    strictList op unit l = none ↔ none ∈ l := by
  cases l with
  | nil => simp [strictList]
  | cons a l => exact strictFold_eq_none

/-- A known strict conjunction of two is their Kleene conjunction. -/
theorem strict_and_eq {a b : Truth} (h : strict (· && ·) a b ≠ none) :
    strict (· && ·) a b = a.and b := by
  rcases a with _ | _ | _ <;> rcases b with _ | _ | _ <;> first | rfl | exact absurd rfl h

/-- A known strict disjunction of two is their Kleene disjunction. -/
theorem strict_or_eq {a b : Truth} (h : strict (· || ·) a b ≠ none) :
    strict (· || ·) a b = a.or b := by
  rcases a with _ | _ | _ <;> rcases b with _ | _ | _ <;> first | rfl | exact absurd rfl h

/-- The first step of a strict fold whose result is known is known. -/
theorem strict_ne_none_of_fold {op : Bool → Bool → Bool} {a c : Truth} {l : List Truth} {b : Bool}
    (h : strictFold op a (c :: l) = some b) : strict op a c ≠ none := by
  intro hnone
  have : strictFold op (strict op a c) l = none := strictFold_eq_none.mpr (by simp [hnone])
  rw [strictFold_cons, this] at h
  cases h

/-- A strict fold of `&&` whose result is known is the Kleene conjunction. -/
theorem all_of_strictFold {a : Truth} {l : List Truth} {b : Bool}
    (h : strictFold (· && ·) a l = some b) : all (a :: l) = some b := by
  induction l generalizing a with
  | nil => rcases a with _ | _ | _ <;> exact h
  | cons c l ih =>
    have hall := ih h
    rw [strict_and_eq (strict_ne_none_of_fold h), all_cons, Truth.and_and] at hall
    exact hall

/-- A strict fold of `||` whose result is known is the Kleene disjunction. -/
theorem any_of_strictFold {a : Truth} {l : List Truth} {b : Bool}
    (h : strictFold (· || ·) a l = some b) : any (a :: l) = some b := by
  induction l generalizing a with
  | nil => rcases a with _ | _ | _ <;> exact h
  | cons c l ih =>
    have hany := ih h
    rw [strict_or_eq (strict_ne_none_of_fold h), any_cons, Truth.or_or] at hany
    exact hany

/-- **A known strict conjunction is the Kleene conjunction.** -/
theorem all_of_strictList {l : List Truth} {b : Bool}
    (h : strictList (· && ·) true l = some b) : all l = some b := by
  cases l with
  | nil => exact h
  | cons a l => exact all_of_strictFold h

/-- **A known strict disjunction is the Kleene disjunction.** -/
theorem any_of_strictList {l : List Truth} {b : Bool}
    (h : strictList (· || ·) false l = some b) : any l = some b := by
  cases l with
  | nil => exact h
  | cons a l => exact any_of_strictFold h

end ThreeValued
