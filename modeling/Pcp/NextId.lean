/-
The arithmetic of `next_highest_id`: `max_index + 11` in `int`, rounded
down to a multiple of ten by C's `%`, and `-1` past
`MAXIMUM_MAPPING_ID`. While `max_index + 11` fits in an `int` the result
is the least multiple of ten at least `max_index + 2`. With
`MAXIMUM_MAPPING_ID = INT_MAX` the ceiling check never fires: for a
largest index within ten of `INT_MAX` the sum wraps, and the result is a
negative number other than `-1`.
-/
import Pcp.Mapping

namespace Pcp

/-- C's `%` by ten: the sign of the dividend. -/
theorem tmod_ten (x : Int) : x.tmod 10 = if 0 ≤ x then x % 10 else -((-x) % 10) := by
  split
  · exact Int.tmod_eq_emod ‹_› (by decide)
  · have hneg : (-x).tmod 10 = -(x.tmod 10) := by rw [Int.tmod_def, Int.tmod_def, Int.neg_tdiv]; ring
    rw [← Int.tmod_eq_emod (by omega) (by decide), hneg, Int.neg_neg]

theorem toInt_wrap {x : Int} (h1 : 2 ^ 31 ≤ x) (h2 : x < 2 ^ 31 + 2 ^ 32) : toInt x = x - 2 ^ 32 := by
  rw [toInt, Int.bmod_def]
  split <;> omega

/-- Whatever the largest index, `next_highest_id` returns an `int`. -/
theorem isCInt_nextHighestIdOf (m : Int) : IsCInt (nextHighestIdOf m) := by
  have hr := toInt_range (m + 11)
  unfold nextHighestIdOf IsCInt maximumMappingId intMax
  dsimp only
  rw [tmod_ten]
  split_ifs <;> omega

/-- While `max_index + 11` fits in an `int`, `next_highest_id` is the
integer `max_index + 11` rounded down to a multiple of ten. -/
theorem nextHighestIdOf_eq_of_fits {m : Int} (h0 : 0 ≤ m) (hm : m + 11 ≤ intMax) :
    nextHighestIdOf m = m + 11 - (m + 11) % 10 := by
  unfold intMax at hm
  unfold nextHighestIdOf maximumMappingId intMax
  dsimp only
  rw [toInt_of_range (by omega) (by omega), tmod_ten, if_pos (show 0 ≤ m + 11 by omega),
    if_neg (show ¬ m + 11 - (m + 11) % 10 > 2147483647 by omega)]

/-- So it is the least multiple of ten at least `max_index + 2`. -/
theorem nextHighestIdOf_of_fits {m : Int} (h0 : 0 ≤ m) (hm : m + 11 ≤ intMax) :
    nextHighestIdOf m % 10 = 0 ∧ m + 2 ≤ nextHighestIdOf m ∧
      ∀ w, w % 10 = 0 → m + 2 ≤ w → nextHighestIdOf m ≤ w := by
  rw [nextHighestIdOf_eq_of_fits h0 hm]
  exact ⟨by omega, by omega, fun w hw hmw => by omega⟩

/-- For a largest index within ten of `INT_MAX`, `max_index + 11` wraps and
`next_highest_id` returns a negative number other than `-1`. -/
theorem nextHighestIdOf_wraps {m : Int} (h1 : intMax - 10 ≤ m) (hm : m ≤ intMax) : nextHighestIdOf m < -1 := by
  unfold intMax at h1 hm
  unfold nextHighestIdOf maximumMappingId intMax
  dsimp only
  rw [toInt_wrap (by omega) (by omega), tmod_ten, if_neg (show ¬ 0 ≤ m + 11 - 2 ^ 32 by omega)]
  split_ifs <;> omega

/-- So, for a largest index that is `0` or an `int`, `next_highest_id` is
negative exactly when the sum wraps, and otherwise the least multiple of
ten at least `max_index + 2`. -/
theorem nextHighestIdOf_cases {m : Int} (h0 : 0 ≤ m) (hm : m ≤ intMax) :
    nextHighestIdOf m < 0 ∨ (nextHighestIdOf m % 10 = 0 ∧ m + 2 ≤ nextHighestIdOf m ∧
      ∀ w, w % 10 = 0 → m + 2 ≤ w → nextHighestIdOf m ≤ w) := by
  by_cases hfit : m + 11 ≤ intMax
  · exact .inr (nextHighestIdOf_of_fits h0 hfit)
  · exact .inl (by have := nextHighestIdOf_wraps (m := m) (by omega) hm; omega)

end Pcp
