import Mathlib.Algebra.Order.Field.Basic
import Mathlib.Algebra.Order.Floor.Ring
import Mathlib.Tactic.Linarith

/-!
# Rounding half away from zero

`roundAway` is the nearest integer, a half going away from zero; `clamp` cuts an integer to a
range.  Both are odd (`roundAway_neg`, `clamp_neg` on a symmetric range), so a value may be
negated before or after it is rounded (`clamp_roundAway_neg`).
-/

namespace Lib

section
variable {K : Type*} [Field K] [LinearOrder K] [IsStrictOrderedRing K] [FloorRing K]

def roundAway (x : K) : ℤ := if 0 ≤ x then ⌊x + 1 / 2⌋ else -⌊-x + 1 / 2⌋

def clamp (lo hi n : ℤ) : ℤ := max lo (min n hi)

theorem roundAway_zero : roundAway (0 : K) = 0 := by
  have h : ⌊(0 : K) + 1 / 2⌋ = 0 := by
    rw [Int.floor_eq_iff]
    constructor
    · norm_num
    · norm_num
  rw [roundAway, if_pos (le_refl _), h]

theorem roundAway_neg (x : K) : roundAway (-x) = -roundAway x := by
  rcases lt_trichotomy x 0 with h | h | h
  · have h1 : 0 ≤ -x := by linarith
    have h2 : ¬ 0 ≤ x := not_le.mpr h
    rw [roundAway, roundAway, if_pos h1, if_neg h2, neg_neg]
  · rw [h, neg_zero, roundAway_zero, neg_zero]
  · have h1 : ¬ 0 ≤ -x := by linarith
    have h2 : 0 ≤ x := le_of_lt h
    rw [roundAway, roundAway, if_neg h1, if_pos h2, neg_neg]

theorem clamp_neg {m : ℤ} (h : 0 ≤ m) (n : ℤ) : clamp (-m) m (-n) = -clamp (-m) m n := by
  unfold clamp
  omega

/-- **Rounding to a symmetric range commutes with negation.** -/
theorem clamp_roundAway_neg {m : ℤ} (h : 0 ≤ m) (x : K) :
    clamp (-m) m (roundAway (-x)) = -clamp (-m) m (roundAway x) := by
  rw [roundAway_neg, clamp_neg h]

end
end Lib
