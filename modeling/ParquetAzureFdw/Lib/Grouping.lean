/-
# Grouping by a key

Elements collected under their keys, in an ordered map.  Under a key stand the elements that
have it, in their order and as often as they occur (`getElem?_groupBy`).  The map is walked in
the order of its keys, so the first entry with some property is the one with the least key that
has it (`find?_eq_some_iff_least`).
-/

import Mathlib.Tactic

namespace Grouping

open Std

variable {κ α β : Type} [DecidableEq κ] {cmp : κ → κ → Ordering} [TransCmp cmp] [LawfulEqCmp cmp]

/-- The elements under their keys. -/
def groupBy (cmp : κ → κ → Ordering) (key : α → κ) (l : List α) : TreeMap κ (List α) cmp :=
  l.foldl (fun m a => m.insert (key a) (m[key a]?.getD [] ++ [a])) ∅

/-- The elements of one key. -/
def ofKey (key : α → κ) (l : List α) (k : κ) : List α := l.filter fun a => decide (key a = k)

theorem mem_ofKey {key : α → κ} {l : List α} {k : κ} {a : α} :
    a ∈ ofKey key l k ↔ a ∈ l ∧ key a = k := by
  rw [ofKey, List.mem_filter, decide_eq_true_eq]

theorem ofKey_ne_nil_iff {key : α → κ} {l : List α} {k : κ} :
    ofKey key l k ≠ [] ↔ ∃ a ∈ l, key a = k := by
  rw [← List.isEmpty_eq_false_iff, List.isEmpty_eq_false_iff_exists_mem]
  simp only [mem_ofKey]

/-- **Under a key stand the elements that have it.** -/
theorem getElem?_groupBy (key : α → κ) (l : List α) (k : κ) :
    (groupBy cmp key l)[k]? = if ofKey key l k = [] then none else some (ofKey key l k) := by
  -- over a prefix of the list, with what is still to come
  suffices hgeneral : ∀ (l : List α) (m : TreeMap κ (List α) cmp),
      (l.foldl (fun m a => m.insert (key a) (m[key a]?.getD [] ++ [a])) m)[k]? =
        if ofKey key l k = [] then m[k]? else some (m[k]?.getD [] ++ ofKey key l k) by
    rw [groupBy, hgeneral, TreeMap.getElem?_emptyc]
    rfl
  intro l
  induction l with
  | nil => exact fun m => rfl
  | cons a l ih =>
    intro m
    rw [List.foldl_cons, ih, TreeMap.getElem?_insert]
    by_cases ha : key a = k
    · have hcons : ofKey key (a :: l) k = a :: ofKey key l k := by simp [ofKey, ha]
      rw [if_pos (LawfulEqCmp.compare_eq_iff_eq.mpr ha), hcons, if_neg (List.cons_ne_nil _ _), ha]
      split_ifs with hnil
      · rw [hnil]
      · simp
    · have hcons : ofKey key (a :: l) k = ofKey key l k := by simp [ofKey, ha]
      rw [if_neg (mt LawfulEqCmp.compare_eq_iff_eq.mp ha), hcons]

/-- The entries of the map. -/
theorem mem_toList_groupBy {key : α → κ} {l : List α} {e : κ × List α} :
    e ∈ (groupBy cmp key l).toList ↔ e.2 = ofKey key l e.1 ∧ e.2 ≠ [] := by
  obtain ⟨k, g⟩ := e
  rw [TreeMap.mem_toList_iff_getElem?_eq_some, getElem?_groupBy]
  split_ifs with hnil
  · simp only [false_iff, not_and, hnil]
    exact fun h => not_not.mpr h
  · simp only [Option.some.injEq]
    constructor
    · rintro rfl
      exact ⟨rfl, hnil⟩
    · exact fun h => h.1.symm

omit [DecidableEq κ] [LawfulEqCmp cmp] in
/-- **The first entry with a property is the one with the least key.** -/
theorem find?_eq_some_iff_least {m : TreeMap κ β cmp} {p : κ × β → Bool} {e : κ × β} :
    m.toList.find? p = some e ↔
      e ∈ m.toList ∧ p e = true ∧ ∀ e' ∈ m.toList, cmp e'.1 e.1 = .lt → p e' = false := by
  have hsorted := TreeMap.ordered_keys_toList (t := m)
  generalize m.toList = l at hsorted ⊢
  induction l with
  | nil => simp
  | cons a l ih =>
    obtain ⟨ha, hsorted⟩ := List.pairwise_cons.mp hsorted
    cases hpa : p a with
    | true =>
      rw [List.find?_cons_of_pos hpa, Option.some.injEq]
      constructor
      · rintro rfl
        refine ⟨List.mem_cons_self, hpa, fun e' he' hlt => ?_⟩
        rcases List.mem_cons.mp he' with rfl | he'
        · have hself : cmp e'.1 e'.1 = .eq := ReflCmp.compare_self
          rw [hself] at hlt
          cases hlt
        · rw [OrientedCmp.gt_of_lt (ha e' he')] at hlt
          cases hlt
      · rintro ⟨he, -, hleast⟩
        rcases List.mem_cons.mp he with rfl | he
        · rfl
        · have hfalse := hleast a List.mem_cons_self (ha e he)
          rw [hpa] at hfalse
          cases hfalse
    | false =>
      rw [List.find?_cons_of_neg (by simp [hpa])]
      refine (ih hsorted).trans ?_
      simp only [List.mem_cons]
      constructor
      · rintro ⟨he, hpe, hleast⟩
        refine ⟨.inr he, hpe, fun e' he' hlt => ?_⟩
        rcases he' with rfl | he'
        · exact hpa
        · exact hleast e' he' hlt
      · rintro ⟨he, hpe, hleast⟩
        refine ⟨he.resolve_left ?_, hpe, fun e' he' => hleast e' (.inr he')⟩
        rintro rfl
        rw [hpa] at hpe
        cases hpe

end Grouping
