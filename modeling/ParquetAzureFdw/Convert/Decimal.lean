/-
# Decimals as text

`format_decimal128` of `src/convert/arrow_to_pg.rs` with its machine integers: the
unscaled value is an `i128`, the scale an `i8`.  `numeric_in` is given a text, so that the
rendering must be exact: the value divided by the power of ten, with as many digits behind
the point as the scale says (`formatDecimal128_exact`).

A negative scale is appended as zeros, and its absolute value is an `i8` but for the least
one: `-s` overflows there, and a nonzero value has no text (`decimal_rendering_exact_iff`).
-/

import ParquetAzureFdw.Convert.ArrowToPg
import ParquetAzureFdw.Lib.Decimals

namespace ParquetAzureFdw

open Decimals

/-- The negation of an `i8`. -/
def checkedNeg8 (x : Int8) : Option Int8 := if x = Int8.minValue then none else some (-x)

theorem checkedNeg8_eq_none_iff {x : Int8} : checkedNeg8 x = none ↔ x = Int8.minValue := by
  unfold checkedNeg8
  split_ifs with h <;> simp [h]

theorem toInt_checkedNeg8 {x y : Int8} (h : checkedNeg8 x = some y) : y.toInt = -x.toInt := by
  unfold checkedNeg8 at h
  split_ifs at h with hmin
  obtain rfl := Option.some.inj h
  have hne : x.toInt ≠ -128 := fun hx => hmin (Int8.toInt_inj.mp hx)
  have hle := x.le_toInt
  have hlt := x.toInt_lt
  rw [Int8.toInt_neg]
  exact Int.bmod_eq_of_le (by omega) (by omega)

/-- `format_decimal128`.  Where overflow is not checked `-s` is `s` again, and `repeat` is asked
for more zeros than a string can hold, which is a panic too. -/
def formatDecimal128Checked (value : BitVec 128) (scale : Int8) : Outcome String :=
  if value.toInt = 0 then
    .ok (if 0 < scale then "0." ++ zeros scale.toInt.toNat else "0")
  else
    let digits := toString value.toInt.natAbs
    let s : Outcome String :=
      if 0 < scale then
        let scale := scale.toInt.toNat
        if digits.length ≤ scale then .ok ("0." ++ zeros (scale - digits.length) ++ digits)
        else
          let split := digits.length - scale
          .ok (String.ofList (digits.toList.take split) ++ "." ++
            String.ofList (digits.toList.drop split))
      else if scale = 0 then .ok digits
      else
        match checkedNeg8 scale with
        | none => .error (.panic "attempt to negate with overflow")
        | some s => .ok (digits ++ zeros s.toInt.toNat)
    s.map fun s => if value.toInt < 0 then "-" ++ s else s

/-- The text denotes `value * 10 ^ (-scale)`: it has as many digits behind the point as the scale
says, no zero in front that is not needed, and a sign for negative values only. -/
def ExactDecimal (s : String) (value scale : ℤ) : Prop :=
  ∃ l : Literal, l.text = s ∧ l.value = value * 10 ^ (-scale) ∧ (l.frac.length : ℤ) = max scale 0 ∧
    l.Normal ∧ (l.negative = true → value < 0)

section Text

variable {value scale : ℤ}

theorem zeros_toList (n : ℕ) : (zeros n).toList = List.replicate n '0' := by
  simp [zeros]

/-- The digits of the absolute value, as `format_decimal128` appends zeros to them. -/
def shiftedDigits (value scale : ℤ) : List Char :=
  if value = 0 then ['0'] else Nat.toDigits 10 value.natAbs ++ List.replicate (-scale).toNat '0'

theorem shiftedDigits_digits : ∀ c ∈ shiftedDigits value scale, c.isDigit = true := by
  intro c hc
  unfold shiftedDigits at hc
  split_ifs at hc
  · rw [List.mem_singleton.mp hc]
    rfl
  · rcases List.mem_append.mp hc with hc | hc
    · exact Nat.isDigit_of_mem_toDigits (by decide) (by decide) hc
    · rw [List.eq_of_mem_replicate hc]
      rfl

theorem shiftedDigits_normal (h : (shiftedDigits value scale).head? = some '0') :
    shiftedDigits value scale = ['0'] := by
  unfold shiftedDigits at h ⊢
  split_ifs at h ⊢ with hzero
  · rfl
  · rw [List.head?_append_of_ne_nil _ Nat.toDigits_ne_nil] at h
    exact absurd h (head?_toDigits (Int.natAbs_pos.mpr hzero))

/-- The number that the digits spell. -/
theorem ofDigitChars_shiftedDigits :
    Nat.ofDigitChars 10 (shiftedDigits value scale) 0 = value.natAbs * 10 ^ (-scale).toNat := by
  unfold shiftedDigits
  split_ifs with hzero
  · rw [hzero]
    simp [Nat.ofDigitChars]
  · rw [Nat.ofDigitChars_append, Nat.ofDigitChars_toDigits (by decide) (by decide),
      Nat.ofDigitChars_replicate_zero, Nat.mul_comm]

theorem ofList_sign (digits : List Char) :
    String.ofList (sign (decide (value < 0)) ++ digits) =
      if value < 0 then "-" ++ String.ofList digits else String.ofList digits := by
  by_cases hneg : value < 0
  · simp [sign, hneg, String.ofList_cons]
  · simp [sign, hneg]

/-- The text of zero. -/
theorem formatDecimal128_zero (scale : ℤ) :
    formatDecimal128 0 scale =
      (pointed false (shiftedDigits 0 scale) scale.toNat shiftedDigits_digits).text := by
  have hdigits : shiftedDigits 0 scale = ['0'] := if_pos rfl
  rw [formatDecimal128, if_pos rfl]
  split_ifs with hscale
  · obtain ⟨n, hn⟩ : ∃ n, scale.toNat = n + 1 := ⟨scale.toNat - 1, by omega⟩
    rw [text_pointed_of_le (by rw [hdigits, List.length_singleton]; omega) (by omega), hdigits, hn]
    refine String.toList_inj.mp ?_
    simp [sign, zeros_toList, List.replicate_succ']
  · obtain hn : scale.toNat = 0 := by omega
    rw [hn, text_pointed_zero (by rw [hdigits]; simp), hdigits]
    rfl

/-- The text of a value with digits behind the point. -/
theorem formatDecimal128_pos (hvalue : value ≠ 0) (hscale : 0 < scale) :
    formatDecimal128 value scale =
      (pointed (decide (value < 0)) (shiftedDigits value scale) scale.toNat
        shiftedDigits_digits).text := by
  have hdigits : shiftedDigits value scale = (toString value.natAbs).toList := by
    have hnone : (-scale).toNat = 0 := by omega
    rw [shiftedDigits, if_neg hvalue, hnone]
    simp
  have hlength : (shiftedDigits value scale).length = (toString value.natAbs).length := by
    rw [hdigits, String.length_toList]
  rw [formatDecimal128, if_neg hvalue]
  simp only [if_pos hscale]
  rcases Nat.lt_or_ge scale.toNat (toString value.natAbs).length with hlt | hle
  · have htext : ∀ n, String.ofList ((toString value.natAbs).toList.take n ++
        '.' :: (toString value.natAbs).toList.drop n) =
        String.ofList ((toString value.natAbs).toList.take n) ++ "." ++
          String.ofList ((toString value.natAbs).toList.drop n) := fun n =>
      String.toList_inj.mp (by simp)
    rw [if_neg (Nat.not_le.mpr hlt), text_pointed_of_lt (by omega) (by omega), List.append_assoc,
      ofList_sign, hlength, hdigits, htext]
  · have htext : ∀ n, String.ofList ('0' :: '.' :: (List.replicate n '0' ++
        (toString value.natAbs).toList)) = "0." ++ zeros n ++ toString value.natAbs := fun n =>
      String.toList_inj.mp (by simp [zeros_toList])
    rw [if_pos hle, text_pointed_of_le (by omega) (by omega), ofList_sign, hlength, hdigits, htext]

/-- The text of a value without digits behind the point. -/
theorem formatDecimal128_nonpos (hvalue : value ≠ 0) (hscale : ¬ 0 < scale) :
    formatDecimal128 value scale =
      (pointed (decide (value < 0)) (shiftedDigits value scale) scale.toNat
        shiftedDigits_digits).text := by
  have hdigits : String.ofList (shiftedDigits value scale) =
      toString value.natAbs ++ zeros (-scale).toNat := by
    rw [shiftedDigits, if_neg hvalue]
    exact String.toList_inj.mp (by simp [zeros_toList])
  have hne : shiftedDigits value scale ≠ [] := by
    rw [shiftedDigits, if_neg hvalue]
    simp
  have hpoint : scale.toNat = 0 := by omega
  rw [formatDecimal128, if_neg hvalue, hpoint, text_pointed_zero hne, ofList_sign, hdigits]
  simp only [if_neg hscale]

/-- **The text is the literal of these digits**, with the point as far from their end as the
scale says. -/
theorem formatDecimal128_eq_pointed (value scale : ℤ) :
    formatDecimal128 value scale =
      (pointed (decide (value < 0)) (shiftedDigits value scale) scale.toNat
        shiftedDigits_digits).text := by
  by_cases hvalue : value = 0
  · subst hvalue
    exact formatDecimal128_zero scale
  · by_cases hscale : 0 < scale
    · exact formatDecimal128_pos hvalue hscale
    · exact formatDecimal128_nonpos hvalue hscale

/-- **The text denotes the value, exactly.** -/
theorem formatDecimal128_exact (value scale : ℤ) :
    ExactDecimal (formatDecimal128 value scale) value scale := by
  refine ⟨_, (formatDecimal128_eq_pointed value scale).symm, ?_, ?_, normal_pointed
    shiftedDigits_normal, fun hneg => of_decide_eq_true hneg⟩
  · -- The sign and the absolute value are the value; the two powers of ten are one.
    have hsign : ((if decide (value < 0) = true then -1 else 1 : ℚ)) * (value.natAbs : ℚ) = value := by
      rw [Nat.cast_natAbs]
      by_cases hneg : value < 0
      · simp [hneg, abs_of_neg hneg]
      · simp [hneg, abs_of_nonneg (not_lt.mp hneg)]
    have hpower : (10 : ℚ) ^ (-scale).toNat / 10 ^ scale.toNat = 10 ^ (-scale) := by
      rw [← zpow_natCast, ← zpow_natCast, ← zpow_sub₀ (by norm_num)]
      congr 1
      omega
    rw [value_pointed, ofDigitChars_shiftedDigits, Nat.cast_mul, Nat.cast_pow, Nat.cast_ofNat,
      mul_div_assoc, ← mul_assoc, hsign, hpower]
  · rw [length_frac_pointed]
    omega

end Text

/-- The rendering fails on a nonzero value of the least scale, and nowhere else. -/
theorem formatDecimal128Checked_eq (value : BitVec 128) (scale : Int8) :
    formatDecimal128Checked value scale =
      if value.toInt ≠ 0 ∧ scale = Int8.minValue then
        .error (.panic "attempt to negate with overflow")
      else .ok (formatDecimal128 value.toInt scale.toInt) := by
  have hpos : 0 < scale ↔ 0 < scale.toInt := Int8.lt_iff_toInt_lt
  have hleast : ¬ 0 < Int8.minValue.toInt := by decide
  unfold formatDecimal128Checked formatDecimal128
  by_cases hvalue : value.toInt = 0
  · simp only [hvalue, hpos, ne_eq, not_true_eq_false, false_and, if_true, if_false]
  simp only [hvalue, hpos, ne_eq, not_false_eq_true, true_and, if_false]
  by_cases hscale : 0 < scale.toInt
  · have hne : scale ≠ Int8.minValue := by
      rintro rfl
      exact hleast hscale
    simp only [hscale, hne, if_true, if_false]
    split_ifs <;> rfl
  · simp only [hscale, if_false]
    by_cases hzero : scale = 0
    · subst hzero
      have hne : (0 : Int8) ≠ Int8.minValue := by decide
      simp [zeros, Except.map, hne]
    · rw [if_neg hzero]
      cases hneg : checkedNeg8 scale with
      | none =>
        rw [if_pos (checkedNeg8_eq_none_iff.mp hneg)]
        rfl
      | some s =>
        have hne : scale ≠ Int8.minValue := fun h => by
          rw [checkedNeg8_eq_none_iff.mpr h] at hneg
          cases hneg
        rw [if_neg hne, ← toInt_checkedNeg8 hneg]
        rfl

/-- **A decimal is rendered exactly, unless it is not zero and its scale is the least `i8`.** -/
theorem decimal_rendering_exact_iff (value : BitVec 128) (scale : Int8) :
    (∃ s, formatDecimal128Checked value scale = .ok s ∧
        ExactDecimal s value.toInt scale.toInt) ↔
      value = 0 ∨ scale ≠ Int8.minValue := by
  have hzero : value.toInt = 0 ↔ value = 0 := by
    rw [← BitVec.toInt_zero (w := 128), BitVec.toInt_inj]
    rfl
  rw [formatDecimal128Checked_eq, ← hzero]
  constructor
  · rintro ⟨s, hs, -⟩
    split_ifs at hs with hleast
    by_contra h
    exact hleast (by simpa [not_or] using h)
  · intro h
    rw [if_neg (by rintro ⟨hvalue, hscale⟩; exact h.elim hvalue fun hne => hne hscale)]
    exact ⟨_, rfl, formatDecimal128_exact _ _⟩

/-- The value one of scale -128 is `10 ^ 128`, and has no text. -/
theorem least_scale_panics :
    formatDecimal128Checked 1 Int8.minValue = .error (.panic "attempt to negate with overflow") := by
  decide

end ParquetAzureFdw
