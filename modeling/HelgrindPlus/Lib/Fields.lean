import Mathlib.Algebra.GroupWithZero.Nat
import Mathlib.Tactic.Common

/-!
# Words put together from fields

A word shifted into place, a field below it, and the mask of the low bits,
as arithmetic on the numbers that the words stand for.
-/

namespace Fields

variable {w shift count : ℕ} {word upper lower : BitVec w}

/-- Nothing is lost by a shift that leaves room for the word. -/
theorem toNat_shiftLeft (room : word.toNat * 2 ^ shift < 2 ^ w) :
    (word <<< shift).toNat = word.toNat * 2 ^ shift := by
  rw [BitVec.toNat_shiftLeft, Nat.shiftLeft_eq, Nat.mod_eq_of_lt room]

theorem toNat_ushiftRight : (word >>> shift).toNat = word.toNat / 2 ^ shift := by
  rw [BitVec.toNat_ushiftRight, Nat.shiftRight_eq_div_pow]

/-- The lower word lies below all bits of the upper one. -/
theorem toNat_or (shift : ℕ) (above : 2 ^ shift ∣ upper.toNat)
    (below : lower.toNat < 2 ^ shift) :
    (upper ||| lower).toNat = upper.toNat + lower.toNat := by
  obtain ⟨multiple, isMultiple⟩ := above
  rw [BitVec.toNat_or, isMultiple, Nat.two_pow_add_eq_or_of_lt below]

theorem toNat_mask (fits : count < w) :
    ((1#w <<< count) - 1#w).toNat = 2 ^ count - 1 := by
  have one : (1#w).toNat = 1 := BitVec.toNat_one (by omega)
  have bit : (1#w <<< count).toNat = 2 ^ count := by
    rw [toNat_shiftLeft, one, Nat.one_mul]
    rw [one, Nat.one_mul]
    exact Nat.pow_lt_pow_right (by decide) fits
  rw [BitVec.toNat_sub_of_le, bit, one]
  rw [BitVec.le_def, bit, one]
  exact Nat.one_le_two_pow

theorem toNat_and_mask (fits : count < w) :
    (word &&& ((1#w <<< count) - 1#w)).toNat = word.toNat % 2 ^ count := by
  rw [BitVec.toNat_and, toNat_mask fits, Nat.and_two_pow_sub_one_eq_mod]

end Fields
