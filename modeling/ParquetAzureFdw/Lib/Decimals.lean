/-
# Decimal literals

A literal is a sign, the digits before the point and the digits behind it.  `pointed` puts
the point into a string of digits, so many places from its end, with zeros in front where
the digits do not reach; the value is that of the digits divided by a power of ten
(`value_pointed`), and no zero is left in front but the one before the point
(`normal_pointed`).
-/

import Mathlib.Data.Rat.Defs
import Mathlib.Tactic

namespace Decimals

/-- A literal `-?digits[.digits]`; without digits behind it the point is left out. -/
structure Literal where
  negative : Bool
  int : List Char
  frac : List Char
  int_digits : ∀ c ∈ int, c.isDigit = true
  frac_digits : ∀ c ∈ frac, c.isDigit = true
  int_ne_nil : int ≠ []

/-- The characters of the sign. -/
def sign (negative : Bool) : List Char := if negative then ['-'] else []

/-- The literal as it is written. -/
def Literal.text (l : Literal) : String :=
  String.ofList (sign l.negative ++ l.int ++ if l.frac = [] then [] else '.' :: l.frac)

/-- The number the literal denotes. -/
def Literal.value (l : Literal) : ℚ :=
  (if l.negative then -1 else 1) *
    ((Nat.ofDigitChars 10 (l.int ++ l.frac) 0 : ℚ) / 10 ^ l.frac.length)

/-- The part before the point has no zero in front of other digits. -/
def Literal.Normal (l : Literal) : Prop := l.int.head? = some '0' → l.int = ['0']

/-- The digits with zeros in front, more of them than `scale`. -/
def padded (digits : List Char) (scale : ℕ) : List Char :=
  List.replicate (scale + 1 - digits.length) '0' ++ digits

variable {digits : List Char} {scale : ℕ}

theorem padded_digits (h : ∀ c ∈ digits, c.isDigit = true) :
    ∀ c ∈ padded digits scale, c.isDigit = true := by
  intro c hc
  rcases List.mem_append.mp hc with hc | hc
  · rw [List.eq_of_mem_replicate hc]
    rfl
  · exact h c hc

theorem scale_lt_length_padded (digits : List Char) (scale : ℕ) :
    scale < (padded digits scale).length := by
  rw [padded, List.length_append, List.length_replicate]
  omega

/-- The digits with a point `scale` places from their end. -/
def pointed (negative : Bool) (digits : List Char) (scale : ℕ)
    (hdigits : ∀ c ∈ digits, c.isDigit = true) : Literal where
  negative := negative
  int := (padded digits scale).take ((padded digits scale).length - scale)
  frac := (padded digits scale).drop ((padded digits scale).length - scale)
  int_digits := fun c hc => padded_digits hdigits c (List.mem_of_mem_take hc)
  frac_digits := fun c hc => padded_digits hdigits c (List.mem_of_mem_drop hc)
  int_ne_nil := by
    have hlt := scale_lt_length_padded digits scale
    rw [Ne, List.take_eq_nil_iff]
    rintro (h | h)
    · omega
    · rw [h] at hlt
      simp at hlt

variable {negative : Bool} {hdigits : ∀ c ∈ digits, c.isDigit = true}

/-- There are `scale` digits behind the point. -/
theorem length_frac_pointed : (pointed negative digits scale hdigits).frac.length = scale := by
  have hlt := scale_lt_length_padded digits scale
  rw [pointed, List.length_drop]
  omega

/-- **The value of the digits, divided by a power of ten.** -/
theorem value_pointed : (pointed negative digits scale hdigits).value =
    (if negative then -1 else 1) * ((Nat.ofDigitChars 10 digits 0 : ℚ) / 10 ^ scale) := by
  have hvalue : Nat.ofDigitChars 10 (padded digits scale) 0 = Nat.ofDigitChars 10 digits 0 := by
    rw [padded, Nat.ofDigitChars_append, Nat.ofDigitChars_replicate_zero, Nat.mul_zero]
  rw [Literal.value, length_frac_pointed]
  rw [pointed, List.take_append_drop, hvalue]

/-- Digits that reach beyond the point are split there. -/
theorem pointed_of_lt (h : scale < digits.length) :
    (pointed negative digits scale hdigits).int = digits.take (digits.length - scale) ∧
      (pointed negative digits scale hdigits).frac = digits.drop (digits.length - scale) := by
  have hnone : scale + 1 - digits.length = 0 := by omega
  have hpadded : padded digits scale = digits := by
    rw [padded, hnone]
    rfl
  exact ⟨congrArg (fun l => l.take (l.length - scale)) hpadded,
    congrArg (fun l => l.drop (l.length - scale)) hpadded⟩

/-- Digits that do not reach beyond the point have one zero in front of it. -/
theorem pointed_of_le (h : digits.length ≤ scale) :
    (pointed negative digits scale hdigits).int = ['0'] ∧
      (pointed negative digits scale hdigits).frac =
        List.replicate (scale - digits.length) '0' ++ digits := by
  have hone : scale + 1 - digits.length = scale - digits.length + 1 := by omega
  have hpadded : padded digits scale =
      '0' :: (List.replicate (scale - digits.length) '0' ++ digits) := by
    rw [padded, hone, List.replicate_succ, List.cons_append]
  have hplace : (padded digits scale).length - scale = 1 := by
    rw [hpadded, List.length_cons, List.length_append, List.length_replicate]
    omega
  change List.take _ _ = _ ∧ List.drop _ _ = _
  rw [hplace, hpadded]
  exact ⟨rfl, rfl⟩

theorem normal_pointed (hnormal : digits.head? = some '0' → digits = ['0']) :
    (pointed negative digits scale hdigits).Normal := by
  rw [Literal.Normal]
  rcases Nat.lt_or_ge scale digits.length with hlt | hle
  · rw [(pointed_of_lt hlt).1, List.head?_take, if_neg (by omega)]
    intro hhead
    have hone := hnormal hhead
    rw [hone, List.length_singleton] at hlt
    obtain rfl : scale = 0 := by omega
    rw [hone]
    rfl
  · rw [(pointed_of_le hle).1]
    exact fun _ => rfl

/-- The text, when the digits reach beyond the point. -/
theorem text_pointed_of_lt (h : scale < digits.length) (hscale : 0 < scale) :
    (pointed negative digits scale hdigits).text =
      String.ofList (sign negative ++ digits.take (digits.length - scale) ++
        '.' :: digits.drop (digits.length - scale)) := by
  have hfrac : digits.drop (digits.length - scale) ≠ [] := by
    rw [Ne, List.drop_eq_nil_iff]
    omega
  obtain ⟨hint, hdrop⟩ := @pointed_of_lt _ _ negative hdigits h
  rw [Literal.text, hint, hdrop, if_neg hfrac]
  rfl

/-- The text, when the digits do not reach beyond the point. -/
theorem text_pointed_of_le (h : digits.length ≤ scale) (hscale : 0 < scale) :
    (pointed negative digits scale hdigits).text =
      String.ofList (sign negative ++
        '0' :: '.' :: (List.replicate (scale - digits.length) '0' ++ digits)) := by
  have hfrac : List.replicate (scale - digits.length) '0' ++ digits ≠ [] := by
    rw [Ne, ← List.length_eq_zero_iff, List.length_append, List.length_replicate]
    omega
  obtain ⟨hint, hdrop⟩ := @pointed_of_le _ _ negative hdigits h
  rw [Literal.text, hint, hdrop, if_neg hfrac, List.append_assoc]
  rfl

/-- The text without a point. -/
theorem text_pointed_zero (h : digits ≠ []) :
    (pointed negative digits 0 hdigits).text = String.ofList (sign negative ++ digits) := by
  obtain ⟨hint, hdrop⟩ := @pointed_of_lt _ _ negative hdigits (List.length_pos_iff.mpr h)
  rw [Literal.text, hint, hdrop, Nat.sub_zero, List.take_length, List.drop_length, if_pos rfl,
    List.append_nil]
  rfl

/-- The digits of a positive number do not begin with a zero. -/
theorem head?_toDigits {n : ℕ} (hn : 0 < n) : (Nat.toDigits 10 n).head? ≠ some '0' := by
  induction n using Nat.strong_induction_on with
  | h n ih =>
    rcases Nat.lt_or_ge n 10 with hlt | hge
    · rw [Nat.toDigits_of_lt_base hlt]
      interval_cases n <;> decide
    · have hne : Nat.toDigits 10 (n / 10) ≠ [] := Nat.toDigits_ne_nil
      rw [Nat.toDigits_of_base_le (by decide) hge, List.head?_append_of_ne_nil _ hne]
      exact ih (n / 10) (Nat.div_lt_self hn (by decide)) (Nat.div_pos hge (by decide))

end Decimals
