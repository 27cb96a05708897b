/-
# Paths

A path is a list of segments joined by a separator.  `under sep base tail` puts a path
below a base: with a separator between them, unless the base is empty or ends in one.
Its segments are those of both (`filterMap_splitOn_under`), and a word without the
separator occurs in it only inside one of the two (`infix_under_iff`).
-/

import Mathlib.Data.List.DropRight
import Mathlib.Data.List.Infix
import Mathlib.Tactic

namespace Paths

variable {α : Type} {sep : α} {base tail w : List α}

/-- Induction over the segments of a path, from the last one on. -/
@[elab_as_elim]
theorem segment_induction (sep : α) {P : List α → Prop} (last : ∀ segment, sep ∉ segment → P segment)
    (more : ∀ segment rest, sep ∉ segment → P rest → P (segment ++ sep :: rest)) (path : List α) :
    P path := by
  induction hn : path.length using Nat.strong_induction_on generalizing path with
  | _ n ih =>
    by_cases hsep : sep ∈ path
    · obtain ⟨segment, rest, rfl, hsegment⟩ := List.eq_append_cons_of_mem hsep
      have hlt : rest.length < n := by
        rw [← hn, List.length_append, List.length_cons]
        omega
      exact more segment rest hsegment (ih rest.length hlt rest rfl)
    · exact last path hsep

/-! ### Words -/

/-- A word without the separator does not stand across one. -/
theorem infix_append_cons_iff (hw : sep ∉ w) :
    w <:+: base ++ sep :: tail ↔ w <:+: base ∨ w <:+: tail := by
  constructor
  · intro h
    rcases List.infix_append_iff.mp h with h | h | ⟨l₁, l₂, rfl, hl₁, hl₂⟩
    · exact .inl h
    · rcases List.infix_cons_iff.mp h with h | h
      · rcases List.prefix_cons_iff.mp h with rfl | ⟨t, rfl, -⟩
        · exact .inl List.nil_infix
        · simp at hw
      · exact .inr h
    · rcases List.prefix_cons_iff.mp hl₂ with rfl | ⟨t, rfl, -⟩
      · rw [List.append_nil]
        exact .inl hl₁.isInfix
      · simp at hw
  · rintro (h | h)
    · exact h.trans (List.prefix_append _ _).isInfix
    · exact h.trans ⟨base ++ [sep], [], by simp⟩

/-- A word without the separator at the end of a path is behind the last one. -/
theorem suffix_append_cons_iff (hw : sep ∉ w) : w <:+ base ++ sep :: tail ↔ w <:+ tail := by
  constructor
  · intro h
    rcases List.suffix_or_suffix_of_suffix h (List.suffix_append base (sep :: tail)) with h | h
    · rcases List.suffix_cons_iff.mp h with rfl | h
      · simp at hw
      · exact h
    · exact absurd (h.subset List.mem_cons_self) hw
  · exact fun h => h.trans ⟨base ++ [sep], by simp⟩

/-- A word occurs in a path when it occurs in a segment. -/
theorem infix_intercalate_iff (hw : sep ∉ w) {segments : List (List α)} (hne : segments ≠ []) :
    w <:+: [sep].intercalate segments ↔ ∃ segment ∈ segments, w <:+: segment := by
  induction segments with
  | nil => exact absurd rfl hne
  | cons segment segments ih =>
    cases segments with
    | nil => simp
    | cons segment' segments =>
      rw [List.intercalate_cons_cons, List.append_assoc, List.singleton_append,
        infix_append_cons_iff hw, ih (by simp)]
      simp

/-! ### A path below a base -/

variable [DecidableEq α]

/-- The segments of joined paths are those of each. -/
theorem splitOn_intercalate_flatMap {paths : List (List α)} (hne : paths ≠ []) :
    ([sep].intercalate paths).splitOn sep = paths.flatMap (List.splitOn sep) := by
  induction paths with
  | nil => exact absurd rfl hne
  | cons path paths ih =>
    cases paths with
    | nil => simp
    | cons path' paths =>
      rw [List.intercalate_cons_cons, List.append_assoc, List.singleton_append,
        List.splitOn_append_cons_self, ih (by simp)]
      simp

/-- `tail` below `base`. -/
def under (sep : α) (base tail : List α) : List α :=
  if base = [] ∨ base.getLast? = some sep then base ++ tail else base ++ sep :: tail

@[simp] theorem under_nil : under sep [] tail = tail := by
  simp [under]

@[simp] theorem under_concat_sep : under sep (base ++ [sep]) tail = base ++ sep :: tail := by
  simp [under]

theorem under_of_last_ne (hbase : base ≠ []) (hlast : base.getLast? ≠ some sep) :
    under sep base tail = base ++ sep :: tail := by
  simp [under, hbase, hlast]

/-- A base is empty, ends in the separator, or ends in something else. -/
theorem base_cases (sep : α) (base : List α) :
    base = [] ∨ (∃ b, base = b ++ [sep]) ∨ base ≠ [] ∧ base.getLast? ≠ some sep := by
  by_cases hlast : base.getLast? = some sep
  · exact .inr (.inl ⟨base.dropLast, (List.dropLast_append_getLast? sep hlast).symm⟩)
  · by_cases hbase : base = []
    · exact .inl hbase
    · exact .inr (.inr ⟨hbase, hlast⟩)

/-- The segments of a path below a base are those of the base and those of the path, up to an
empty one. -/
theorem filterMap_splitOn_under {β : Type} {f : List α → Option β} (hf : f [] = none)
    (base tail : List α) :
    ((under sep base tail).splitOn sep).filterMap f =
      (base.splitOn sep).filterMap f ++ (tail.splitOn sep).filterMap f := by
  rcases base_cases sep base with rfl | ⟨b, rfl⟩ | ⟨hbase, hlast⟩
  · simp [hf]
  · rw [under_concat_sep, List.splitOn_append_cons_self, List.splitOn_append_cons_self]
    simp [hf]
  · rw [under_of_last_ne hbase hlast, List.splitOn_append_cons_self, List.filterMap_append]

theorem infix_under_iff (hw : sep ∉ w) :
    w <:+: under sep base tail ↔ w <:+: base ∨ w <:+: tail := by
  have hnil : w <:+: [] → w <:+: tail := fun h => List.infix_nil.mp h ▸ List.nil_infix
  rcases base_cases sep base with rfl | ⟨b, rfl⟩ | ⟨hbase, hlast⟩
  · rw [under_nil]
    exact ⟨.inr, fun h => h.elim hnil id⟩
  · have hb : w <:+: b ++ [sep] ↔ w <:+: b ∨ w <:+: [] := infix_append_cons_iff hw
    rw [under_concat_sep, infix_append_cons_iff hw, hb]
    tauto
  · rw [under_of_last_ne hbase hlast, infix_append_cons_iff hw]

/-- A segment that is not empty and does not end in the separator. -/
def Proper (sep : α) (segment : List α) : Prop := segment ≠ [] ∧ segment.getLast? ≠ some sep

theorem getLast?_under {segment : List α} (hsegment : segment ≠ []) :
    (under sep base segment).getLast? = segment.getLast? := by
  unfold under
  split_ifs
  · rw [List.getLast?_append_of_ne_nil _ hsegment]
  · rw [List.getLast?_append_of_ne_nil _ (by simp), List.getLast?_cons_of_ne_nil hsegment]

theorem under_under {segment : List α} (hsegment : Proper sep segment) :
    under sep (under sep base segment) tail = under sep base (segment ++ sep :: tail) := by
  have hlast : (under sep base segment).getLast? ≠ some sep := by
    rw [getLast?_under hsegment.1]
    exact hsegment.2
  have hne : under sep base segment ≠ [] := by
    intro h
    rw [h, List.getLast?_nil] at hlast
    unfold under at h
    split_ifs at h <;> simp [hsegment.1] at h
  rw [under_of_last_ne hne hlast]
  unfold under
  split_ifs <;> simp

/-- Segments put below a base one after the other, and a last one. -/
theorem under_foldl_under {segments : List (List α)} (hsegments : ∀ s ∈ segments, Proper sep s) :
    under sep (segments.foldl (under sep) base) tail =
      under sep base ([sep].intercalate (segments ++ [tail])) := by
  induction segments generalizing base with
  | nil => simp
  | cons segment segments ih =>
    rw [List.foldl_cons, ih fun s hs => hsegments s (by simp [hs]),
      under_under (hsegments segment (by simp))]
    cases segments <;> simp [List.intercalate_cons_cons]

theorem getLast?_foldl_under {segments : List (List α)} (hsegments : ∀ s ∈ segments, Proper sep s)
    (hbase : segments = [] → base.getLast? ≠ some sep) :
    (segments.foldl (under sep) base).getLast? ≠ some sep := by
  rcases List.eq_nil_or_concat segments with rfl | ⟨init, segment, rfl⟩
  · exact hbase rfl
  · obtain ⟨hne, hlast⟩ := hsegments segment (by simp)
    rw [List.concat_eq_append, List.foldl_concat, getLast?_under hne]
    exact hlast

/-! ### The last separator -/

/-- What stands before and behind the last separator. -/
def splitLast (sep : α) : List α → Option (List α × List α)
  | [] => none
  | x :: l =>
    match splitLast sep l with
    | some (a, b) => some (x :: a, b)
    | none => if x = sep then some ([], l) else none

theorem splitLast_eq_none_iff {l : List α} : splitLast sep l = none ↔ sep ∉ l := by
  induction l with
  | nil => simp [splitLast]
  | cons x l ih =>
    rw [splitLast]
    cases h : splitLast sep l with
    | some ab =>
      have hmem : sep ∈ l := by_contra fun hmem => by simp [ih.mpr hmem] at h
      simp [hmem]
    | none =>
      have hmem := ih.mp h
      by_cases hx : x = sep
      · simp [hx]
      · simp [hx, hmem, Ne.symm hx]

theorem splitLast_eq_some_iff {l a b : List α} :
    splitLast sep l = some (a, b) ↔ l = a ++ sep :: b ∧ sep ∉ b := by
  induction l generalizing a b with
  | nil => simp [splitLast]
  | cons x l ih =>
    rw [splitLast]
    cases h : splitLast sep l with
    | some ab =>
      obtain ⟨a', b'⟩ := ab
      obtain ⟨rfl, hb'⟩ := ih.mp h
      simp only [Option.some.injEq, Prod.mk.injEq]
      constructor
      · rintro ⟨rfl, rfl⟩
        exact ⟨rfl, hb'⟩
      · rintro ⟨hl, hb⟩
        cases a with
        | nil =>
          obtain ⟨-, rfl⟩ := List.cons.inj hl
          exact absurd (by simp) hb
        | cons y a =>
          obtain ⟨rfl, htail⟩ := List.cons.inj hl
          have hsame := Option.some.inj (h.symm.trans (ih.mpr ⟨htail, hb⟩))
          cases hsame
          exact ⟨rfl, rfl⟩
    | none =>
      have hmem := splitLast_eq_none_iff.mp h
      constructor
      · intro hx
        split_ifs at hx with hx'
        cases hx
        exact ⟨by rw [hx']; rfl, hmem⟩
      · rintro ⟨hl, hb⟩
        cases a with
        | nil =>
          obtain ⟨rfl, rfl⟩ := List.cons.inj hl
          rw [if_pos rfl]
        | cons y a =>
          obtain ⟨-, rfl⟩ := List.cons.inj hl
          exact absurd (by simp) hmem

end Paths
