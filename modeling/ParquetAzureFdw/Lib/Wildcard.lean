/-
# Wildcard patterns

A pattern is a list of atoms: a literal, any one symbol but the separator, and any
number of such symbols.  No wildcard crosses the separator, so a pattern matches a path
exactly when it has as many segments and each of them matches
(`isMatch_iff_segments`).
-/

import ParquetAzureFdw.Lib.Paths

namespace Wildcard

/-- An atom of a pattern. -/
inductive Atom (α : Type) where
  | lit (c : α)
  | one
  | star
  deriving DecidableEq, Repr

variable {α : Type} [DecidableEq α] {sep : α} {p q : List (Atom α)} {t u : List α}

/-- What a star may leave of a text. -/
def rests (sep : α) : List α → List (List α)
  | [] => [[]]
  | x :: xs => (x :: xs) :: if x = sep then [] else rests sep xs

/-- Whether a pattern matches a whole text. -/
def isMatch (sep : α) : List (Atom α) → List α → Bool
  | [], text => text.isEmpty
  | .star :: p, text => (rests sep text).any (isMatch sep p)
  | .lit c :: p, x :: xs => x == c && isMatch sep p xs
  | .one :: p, x :: xs => x != sep && isMatch sep p xs
  | .lit _ :: _, [] => false
  | .one :: _, [] => false

@[simp] theorem isMatch_nil : isMatch sep [] t = t.isEmpty := by
  simp [isMatch]

@[simp] theorem isMatch_star : isMatch sep (.star :: p) t = (rests sep t).any (isMatch sep p) := by
  simp [isMatch]

@[simp] theorem isMatch_lit_cons {c x : α} :
    isMatch sep (.lit c :: p) (x :: t) = (x == c && isMatch sep p t) := rfl

@[simp] theorem isMatch_one_cons {x : α} :
    isMatch sep (.one :: p) (x :: t) = (x != sep && isMatch sep p t) := rfl

@[simp] theorem isMatch_lit_nil {c : α} : isMatch sep (.lit c :: p) [] = false := rfl

@[simp] theorem isMatch_one_nil : isMatch sep (.one :: p) [] = false := rfl

/-- A star stops at a separator. -/
theorem rests_append_cons (ht : sep ∉ t) :
    rests sep (t ++ sep :: u) = (rests sep t).map (· ++ sep :: u) := by
  induction t with
  | nil => simp [rests]
  | cons x t ih =>
    obtain ⟨hx, ht⟩ := not_or.mp (List.mem_cons.not.mp ht)
    simp [rests, Ne.symm hx, ih ht]

theorem suffix_of_mem_rests {r : List α} (h : r ∈ rests sep t) : ∃ a, sep ∉ a ∧ t = a ++ r := by
  induction t with
  | nil => exact ⟨[], by simp, by simpa [rests, eq_comm] using h⟩
  | cons x t ih =>
    rw [rests, List.mem_cons] at h
    rcases h with rfl | h
    · exact ⟨[], by simp, rfl⟩
    · split_ifs at h with hx
      · cases h
      · obtain ⟨a, ha, rfl⟩ := ih h
        exact ⟨x :: a, by simp [ha, Ne.symm hx], rfl⟩

theorem mem_rests_append {a r : List α} (ha : sep ∉ a) : r ∈ rests sep (a ++ r) := by
  induction a with
  | nil => cases r <;> simp [rests]
  | cons x a ih =>
    obtain ⟨hx, ha⟩ := not_or.mp (List.mem_cons.not.mp ha)
    rw [List.cons_append, rests, if_neg (Ne.symm hx)]
    exact List.mem_cons_of_mem _ (ih ha)

theorem not_mem_of_mem_rests {r : List α} (ht : sep ∉ t) (h : r ∈ rests sep t) : sep ∉ r := by
  obtain ⟨a, -, rfl⟩ := suffix_of_mem_rests h
  exact fun hr => ht (List.mem_append_right a hr)

theorem mem_of_mem_rests {r : List α} (ht : sep ∈ t) (h : r ∈ rests sep t) : sep ∈ r := by
  obtain ⟨a, ha, rfl⟩ := suffix_of_mem_rests h
  exact (List.mem_append.mp ht).resolve_left ha

/-- **A separator of the pattern matches the separator of the text.** -/
theorem isMatch_append_cons (hp : .lit sep ∉ p) (ht : sep ∉ t) :
    isMatch sep (p ++ .lit sep :: q) (t ++ sep :: u) = (isMatch sep p t && isMatch sep q u) := by
  induction p generalizing t with
  | nil =>
    cases t with
    | nil => simp
    | cons x t =>
      have hx : x ≠ sep := by
        rintro rfl
        simp at ht
      simp [hx]
  | cons a p ih =>
    obtain ⟨ha, hp'⟩ := not_or.mp (List.mem_cons.not.mp hp)
    cases a with
    | star =>
      have hrests : ∀ r ∈ rests sep t, isMatch sep (p ++ .lit sep :: q) (r ++ sep :: u) =
          (isMatch sep p r && isMatch sep q u) := fun r hr => ih hp' (not_mem_of_mem_rests ht hr)
      rw [List.cons_append, isMatch_star, isMatch_star, rests_append_cons ht, List.any_map]
      rw [Bool.eq_iff_iff]
      simp only [List.any_eq_true, Function.comp_apply, Bool.and_eq_true]
      constructor
      · rintro ⟨r, hr, h⟩
        rw [hrests r hr, Bool.and_eq_true] at h
        exact ⟨⟨r, hr, h.1⟩, h.2⟩
      · rintro ⟨⟨r, hr, h⟩, hu⟩
        exact ⟨r, hr, by rw [hrests r hr, h, hu]; rfl⟩
    | lit c =>
      cases t with
      | nil =>
        have hc : sep ≠ c := fun h => ha (h ▸ rfl)
        simp [hc]
      | cons x t => simp [ih hp' (List.not_mem_of_not_mem_cons ht), Bool.and_assoc]
    | one =>
      cases t with
      | nil => simp
      | cons x t => simp [ih hp' (List.not_mem_of_not_mem_cons ht), Bool.and_assoc]

/-- A pattern with no separator matches no text with one. -/
theorem isMatch_eq_false_of_sep (hp : .lit sep ∉ p) (ht : sep ∈ t) : isMatch sep p t = false := by
  induction p generalizing t with
  | nil => cases t <;> simp at ht ⊢
  | cons a p ih =>
    obtain ⟨ha, hp'⟩ := not_or.mp (List.mem_cons.not.mp hp)
    cases a with
    | star =>
      rw [isMatch_star, List.any_eq_false]
      exact fun r hr => by simp [ih hp' (mem_of_mem_rests ht hr)]
    | lit c =>
      cases t with
      | nil => rfl
      | cons x t =>
        have hc : sep ≠ c := fun h => ha (h ▸ rfl)
        rcases List.mem_cons.mp ht with rfl | ht
        · simp [hc]
        · simp [ih hp' ht]
    | one =>
      cases t with
      | nil => rfl
      | cons x t =>
        rcases List.mem_cons.mp ht with rfl | ht
        · simp
        · simp [ih hp' ht]

/-- A pattern with a separator matches no text without one. -/
theorem isMatch_eq_false_of_no_sep (hp : .lit sep ∈ p) (ht : sep ∉ t) :
    isMatch sep p t = false := by
  induction p generalizing t with
  | nil => cases hp
  | cons a p ih =>
    cases a with
    | star =>
      have hp : .lit sep ∈ p := by simpa using hp
      rw [isMatch_star, List.any_eq_false]
      exact fun r hr => by simp [ih hp (not_mem_of_mem_rests ht hr)]
    | lit c =>
      cases t with
      | nil => rfl
      | cons x t =>
        have hx : sep ≠ x := fun h => ht (h ▸ List.mem_cons_self)
        rcases List.mem_cons.mp hp with hc | hp
        · obtain rfl := Atom.lit.inj hc
          simp [Ne.symm hx]
        · simp [ih hp (List.not_mem_of_not_mem_cons ht)]
    | one =>
      have hp : .lit sep ∈ p := by simpa using hp
      cases t with
      | nil => rfl
      | cons x t => simp [ih hp (List.not_mem_of_not_mem_cons ht)]

/-- **A pattern matches a path segment by segment.** -/
theorem isMatch_iff_segments (p : List (Atom α)) (t : List α) :
    isMatch sep p t = true ↔
      List.Forall₂ (fun p t => isMatch sep p t = true) (p.splitOn (.lit sep)) (t.splitOn sep) := by
  induction p using Paths.segment_induction (Atom.lit sep) generalizing t with
  | last p hp =>
    rw [List.splitOn_eq_singleton hp]
    by_cases ht : sep ∈ t
    · obtain ⟨a, b, rfl, ha⟩ := List.eq_append_cons_of_mem ht
      rw [isMatch_eq_false_of_sep hp ht, List.splitOn_append_cons_self_of_not_mem ha]
      simp [List.forall₂_cons, List.splitOn_ne_nil]
    · simp [List.splitOn_eq_singleton ht]
  | more p q hp ih =>
    rw [List.splitOn_append_cons_self_of_not_mem hp]
    by_cases ht : sep ∈ t
    · obtain ⟨a, b, rfl, ha⟩ := List.eq_append_cons_of_mem ht
      rw [isMatch_append_cons hp ha, List.splitOn_append_cons_self_of_not_mem ha, List.forall₂_cons,
        Bool.and_eq_true, ih]
    · rw [isMatch_eq_false_of_no_sep (by simp) ht, List.splitOn_eq_singleton ht]
      simp [List.forall₂_cons, List.splitOn_ne_nil]

/-- A pattern without stars takes as many symbols as it has atoms. -/
theorem isMatch_append_of_isMatch (hp : .star ∉ p) (hmatch : isMatch sep p t = true) :
    isMatch sep (p ++ q) (t ++ u) = isMatch sep q u := by
  induction p generalizing t with
  | nil =>
    rw [isMatch_nil, List.isEmpty_iff] at hmatch
    simp [hmatch]
  | cons a p ih =>
    obtain ⟨ha, hp'⟩ := not_or.mp (List.mem_cons.not.mp hp)
    cases a with
    | star => exact absurd rfl ha
    | lit c | one =>
      cases t with
      | nil => cases hmatch
      | cons x t =>
        obtain ⟨hx, hmatch⟩ := Bool.and_eq_true_iff.mp hmatch
        simp [ih hp' hmatch, hx]

/-- What a pattern begins with literally, its texts begin with. -/
theorem prefix_of_isMatch {w : List α} (h : isMatch sep (w.map .lit ++ p) t = true) : w <+: t := by
  induction w generalizing t with
  | nil => exact List.nil_prefix
  | cons c w ih =>
    cases t with
    | nil => cases h
    | cons x t =>
      obtain ⟨hx, h⟩ := Bool.and_eq_true_iff.mp h
      rw [eq_of_beq hx]
      exact List.prefix_cons_inj c |>.mpr (ih h)

end Wildcard
