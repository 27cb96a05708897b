/-
# Little-endian numbers

A number in a fixed count of bytes, the lowest first.  Writing keeps the number
modulo the size of the field, and reading gives it back (`value_bytes`).  Writing what was
read gives the bytes back (`bytes_value`), so a field has one spelling for each value.
-/

import Mathlib.Tactic

namespace LittleEndian

/-- The `k` lowest bytes of `n`, the lowest first. -/
def bytes : ℕ → ℕ → List UInt8
  | 0, _ => []
  | k + 1, n => UInt8.ofNat n :: bytes k (n / 256)

/-- The number that a list of bytes stands for. -/
def value : List UInt8 → ℕ
  | [] => 0
  | b :: l => b.toNat + 256 * value l

@[simp] theorem length_bytes (k n : ℕ) : (bytes k n).length = k := by
  induction k generalizing n with
  | zero => rfl
  | succ k ih => simp [bytes, ih]

/-- **What is read is what was written, modulo the size of the field.** -/
theorem value_bytes (k n : ℕ) : value (bytes k n) = n % 256 ^ k := by
  induction k generalizing n with
  | zero => simp [bytes, value, Nat.mod_one]
  | succ k ih =>
    have hlow : (UInt8.ofNat n).toNat = n % 256 := by simp
    rw [bytes, value, ih, hlow, pow_succ, mul_comm (256 ^ k), Nat.mod_mul]

/-- **What is written is what was read.** -/
theorem bytes_value (l : List UInt8) : bytes l.length (value l) = l := by
  induction l with
  | nil => rfl
  | cons b l ih =>
    have hb : b.toNat < 256 := b.toNat_lt
    have hlow : UInt8.ofNat (b.toNat + 256 * value l) = b := by
      rw [← UInt8.toNat_inj, UInt8.toNat_ofNat']
      omega
    have hhigh : (b.toNat + 256 * value l) / 256 = value l := by omega
    rw [value, List.length_cons, bytes, hlow, hhigh, ih]

end LittleEndian
