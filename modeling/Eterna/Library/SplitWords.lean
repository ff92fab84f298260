import Mathlib.Data.BitVec

/-!
# Words split over fields

A word of `w` bits that does not fit in a field of a packed record is stored in pieces, its lowest
bits in one field and the bits above them, shifted down, in others.  `or_shiftLeft` puts two
neighbouring pieces together again, and may be used once more on the result.  Two pieces may also
share a field, each under a mask of its own; `or_and_mask` separates them.
-/

namespace SplitWords

variable {w : ℕ}

/-- **Two pieces of a word**, the lowest `k` bits and the `l` bits above them, are its lowest
`k + l` bits. -/
theorem or_shiftLeft (a : BitVec w) (k l : ℕ) :
    (a.setWidth k).setWidth w ||| ((a >>> k).setWidth l).setWidth w <<< k =
      (a.setWidth (k + l)).setWidth w := by
  refine BitVec.eq_of_getLsbD_eq fun i hi => ?_
  simp only [BitVec.getLsbD_or, BitVec.getLsbD_shiftLeft, BitVec.getLsbD_setWidth,
    BitVec.getLsbD_ushiftRight]
  by_cases hlow : i < k
  · have hsum : i < k + l := by omega
    simp [hlow, hsum, hi]
  · have hpos : k + (i - k) = i := by omega
    have hpiece : i - k < l ↔ i < k + l := by omega
    have hlast : i - k < w := by omega
    simp [hlow, hpos, hpiece, hlast, hi]

/-- **Two pieces in one field**, under masks that do not meet: each is read back. -/
theorem or_and_mask (a b : BitVec w) {m m' : BitVec w} (h : m' &&& m = 0#w) :
    (a &&& m ||| b &&& m') &&& m = a &&& m := by
  rw [BitVec.and_or_distrib_right, BitVec.and_assoc, BitVec.and_self, BitVec.and_assoc, h,
    BitVec.and_zero, BitVec.or_zero]

end SplitWords
