/-
# Prefixes as ranges of byte strings

Byte strings in lexicographic order.  The strings that begin with `p` are an
interval: from `p` itself up to, but without, `upper p`, the string obtained from
`p` by dropping trailing `0xFF` bytes and adding one to the last byte that is
left (`prefix_iff_between`).  A string of `0xFF` bytes only has no such bound:
there the prefix test is the lower bound alone (`prefix_iff_of_upper_eq_none`).
-/

import Mathlib.Data.List.Infix
import Mathlib.Tactic

namespace ByteOrder

/-- Drop leading `0xFF` bytes, then add one to the first byte left. -/
def upperRev : List UInt8 → Option (List UInt8)
  | [] => none
  | b :: l => if b < 0xFF then some ((b + 1) :: l) else upperRev l

/-- The least byte string above every string that begins with `p`. -/
def upper (p : List UInt8) : Option (List UInt8) := (upperRev p.reverse).map List.reverse

@[simp] theorem compare_cons (a b : UInt8) (l m : List UInt8) :
    compare (a :: l) (b :: m) = (compare a b).then (compare l m) :=
  List.compareLex_cons_cons

theorem upperRev_concat (l : List UInt8) (b : UInt8) :
    upperRev (l ++ [b]) = match upperRev l with
      | some u => some (u ++ [b])
      | none => if b < 0xFF then some [b + 1] else none := by
  induction l with
  | nil => simp [upperRev]
  | cons a l ih =>
    rw [List.cons_append, upperRev, upperRev]
    split
    · rfl
    · exact ih

theorem upper_cons (b : UInt8) (p : List UInt8) :
    upper (b :: p) = match upper p with
      | some u => some (b :: u)
      | none => if b < 0xFF then some [b + 1] else none := by
  rw [upper, List.reverse_cons, upperRev_concat, upper]
  cases upperRev p.reverse with
  | some u => simp
  | none => by_cases hb : b < 0xFF <;> simp [hb]

/-- A string of `0xFF` bytes is a prefix of every string that is not below it. -/
theorem prefix_iff_of_upper_eq_none {p : List UInt8} (h : upper p = none) (s : List UInt8) :
    p <+: s ↔ compare p s ≠ .gt := by
  induction p generalizing s with
  | nil => cases s <;> simp [compare, List.compareLex]
  | cons b p ih =>
    obtain ⟨hp, hb⟩ : upper p = none ∧ ¬ b < 0xFF := by
      rw [upper_cons] at h
      cases hp : upper p with
      | some u => rw [hp] at h; cases h
      | none => rw [hp] at h; exact ⟨rfl, fun hb => by rw [if_pos hb] at h; cases h⟩
    cases s with
    | nil => simp [compare, List.compareLex]
    | cons c s =>
      rw [List.cons_prefix_cons, compare_cons, ih hp]
      cases hbc : compare b c with
      | lt => exact absurd (Std.compare_eq_lt.mp hbc) (by grind)
      | eq => simp [Std.LawfulEqOrd.eq_of_compare hbc]
      | gt =>
        have : b ≠ c := fun h => by rw [h, Std.ReflOrd.compare_self] at hbc; cases hbc
        simp [this]

/-- Nothing is below the empty string. -/
theorem compare_nil_ne_lt (s : List UInt8) : compare s [] ≠ .lt := by
  cases s <;> simp [compare, List.compareLex]

theorem ne_of_compare {b c : UInt8} (h : compare b c ≠ .eq) : b ≠ c :=
  fun hbc => h (hbc ▸ Std.ReflOrd.compare_self)

/-- **The strings with a given prefix are an interval.** -/
theorem prefix_iff_between {p u : List UInt8} (h : upper p = some u) (s : List UInt8) :
    p <+: s ↔ compare p s ≠ .gt ∧ compare s u = .lt := by
  induction p generalizing s u with
  | nil => cases h
  | cons b p ih =>
    cases s with
    | nil => simp [compare, List.compareLex]
    | cons c s =>
      rw [List.cons_prefix_cons, compare_cons]
      rw [upper_cons] at h
      cases hp : upper p with
      | some u' =>
        rw [hp] at h
        obtain rfl := Option.some.inj h
        rw [ih hp, compare_cons]
        cases hbc : compare b c with
        | eq =>
          obtain rfl := Std.LawfulEqOrd.eq_of_compare hbc
          simp
        | lt => simp [ne_of_compare (by rw [hbc]; simp), Std.OrientedCmp.gt_of_lt hbc]
        | gt => simp [ne_of_compare (by rw [hbc]; simp)]
      | none =>
        rw [hp] at h
        obtain ⟨hb, hu⟩ : b < 0xFF ∧ [b + 1] = u := by
          by_cases hb : b < 0xFF
          · exact ⟨hb, by simpa [hb] using h⟩
          · simp [hb] at h
        subst hu
        rw [prefix_iff_of_upper_eq_none hp, compare_cons]
        cases hbc : compare b c with
        | eq =>
          obtain rfl := Std.LawfulEqOrd.eq_of_compare hbc
          have hsucc : compare b (b + 1) = .lt := Std.compare_eq_lt.mpr (by grind)
          simp [hsucc]
        | lt =>
          -- `c` is above `b`, so not below `b + 1`; and the tail is not below the empty string.
          have hc : compare c (b + 1) ≠ .lt := fun hlt => by
            have h1 := Std.compare_eq_lt.mp hbc
            have h2 := Std.compare_eq_lt.mp hlt
            grind
          have hs := compare_nil_ne_lt s
          cases hcb : compare c (b + 1) <;> simp_all [ne_of_compare (b := b) (c := c)]
        | gt => simp [ne_of_compare (by rw [hbc]; simp)]

end ByteOrder
