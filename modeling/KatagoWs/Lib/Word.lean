import Mathlib.Data.Nat.Bitwise
import Mathlib.Order.Bounds.Basic
import Mathlib.Order.MinMax

/-!
# Machine words that fail

Arithmetic on unsigned words of `w` bits, held as `Nat`: a division by zero, a difference below
zero, and a shift by `w` or more, or one that loses bits, have no result.

* `leadingZeros_eq`   the zeros before the highest bit;
* `shl?_one`          `1` shifted to the highest bit of a word;
* `isGreatest_log2`   which is the greatest power of two that the word reaches.
-/

namespace Lib

/-- the zeros at the top of a word of the given width -/
def leadingZeros (n : Nat) : Nat → Nat
  | 0 => 0
  | w + 1 => if n.testBit w then 0 else leadingZeros n w + 1

def div? (a b : Nat) : Option Nat := if b = 0 then none else some (a / b)

def sub? (a b : Nat) : Option Nat := if b ≤ a then some (a - b) else none

def shl? (w a n : Nat) : Option Nat := if n < w ∧ a <<< n < 2 ^ w then some (a <<< n) else none

@[simp] theorem div?_eq {a b : Nat} (h : b ≠ 0) : div? a b = some (a / b) := if_neg h

@[simp] theorem sub?_eq {a b : Nat} (h : b ≤ a) : sub? a b = some (a - b) := if_pos h

theorem leadingZeros_eq {n w : Nat} (hn : n ≠ 0) (h : n < 2 ^ w) :
    leadingZeros n w = w - 1 - n.log2 := by
  induction w with
  | zero => omega
  | succ w ih =>
    rw [leadingZeros]
    by_cases ht : n.testBit w = true
    · have hlog : n.log2 = w := (Nat.log2_eq_iff hn).mpr ⟨Nat.ge_two_pow_of_testBit ht, h⟩
      rw [if_pos ht, hlog]
      omega
    · have hlt : n < 2 ^ w := by
        apply Nat.lt_pow_two_of_testBit
        intro i hi
        rcases Nat.eq_or_lt_of_le hi with rfl | hi
        · simpa using ht
        · exact Nat.testBit_lt_two_pow (lt_of_lt_of_le h (Nat.pow_le_pow_right (by decide) hi))
      have hlog : n.log2 < w := (Nat.log2_lt hn).mpr hlt
      rw [if_neg ht, ih hlt]
      omega

theorem shl?_one {w k : Nat} (h : k < w) : shl? w 1 k = some (1 <<< k) := by
  apply if_pos
  refine ⟨h, ?_⟩
  rw [Nat.one_shiftLeft]
  exact Nat.pow_lt_pow_right (by decide) h

/-- **The highest bit** of a number is the greatest power of two it reaches. -/
theorem isGreatest_log2 {n : Nat} (hn : n ≠ 0) :
    IsGreatest {p | p.isPowerOfTwo ∧ p ≤ n} (1 <<< n.log2) := by
  rw [Nat.one_shiftLeft]
  refine ⟨⟨⟨n.log2, rfl⟩, Nat.log2_self_le hn⟩, ?_⟩
  rintro p ⟨⟨k, rfl⟩, hk⟩
  exact Nat.pow_le_pow_right (by decide) ((Nat.le_log2 hn).mpr hk)

theorem isPowerOfTwo_min {m n : Nat} (hm : m.isPowerOfTwo) (hn : n.isPowerOfTwo) :
    (min m n).isPowerOfTwo := by
  rcases min_choice m n with h | h
  · rwa [h]
  · rwa [h]

theorem isPowerOfTwo_max {m n : Nat} (hm : m = 0 ∨ m.isPowerOfTwo) (hn : n.isPowerOfTwo) :
    (max m n).isPowerOfTwo := by
  rcases hm with rfl | hm
  · simpa using hn
  · rcases max_choice m n with h | h
    · rwa [h]
    · rwa [h]

end Lib
