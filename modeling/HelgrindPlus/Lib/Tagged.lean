import Mathlib.Data.BitVec

/-!
# Words with a tag in the low bits

A word whose masked bits are clear can carry a tag in them.  The word and the
tag are both recovered by masking.
-/

namespace Tagged

variable {w : ℕ} {mask word other tag mark : BitVec w}

private theorem and_not_of_clear (clear : word &&& mask = 0#w) :
    word &&& ~~~mask = word := by
  ext i bound
  have here := congrArg (·.getLsbD i) clear
  simp only [BitVec.getLsbD_and, BitVec.getLsbD_zero] at here
  simp only [BitVec.getElem_and, BitVec.getElem_not]
  rw [BitVec.getLsbD_eq_getElem bound, BitVec.getLsbD_eq_getElem bound]
    at here
  cases known : word[i] with
  | false => rfl
  | true => simpa [known] using here

theorem and_of_within (within : tag &&& ~~~mask = 0#w) : tag &&& mask = tag := by
  have double : tag &&& ~~~(~~~mask) = tag := and_not_of_clear within
  rwa [BitVec.not_not] at double

theorem or_and (left right bits : BitVec w) :
    (left ||| right) &&& bits = (left &&& bits) ||| (right &&& bits) := by
  ext i bound
  simp [Bool.and_or_distrib_right]

theorem and_of_narrower {bits : BitVec w} (clear : word &&& mask = 0#w)
    (narrower : mask &&& bits = bits) : word &&& bits = 0#w := by
  rw [← narrower, ← BitVec.and_assoc, clear, BitVec.zero_and]

/-- The word without its tag. -/
theorem word_of_tagged (clear : word &&& mask = 0#w)
    (within : tag &&& ~~~mask = 0#w) : (word ||| tag) &&& ~~~mask = word := by
  rw [or_and, and_not_of_clear clear, within, BitVec.or_zero]

theorem tag_of_tagged (clear : word &&& mask = 0#w)
    (within : tag &&& ~~~mask = 0#w) : (word ||| tag) &&& mask = tag := by
  rw [or_and, clear, and_of_within within, BitVec.zero_or]

end Tagged
