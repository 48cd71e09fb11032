import Mathlib.Data.Nat.Bitwise
import Mathlib.Data.Nat.Size

/-!
# Masks in place of remainders

If the mask `m` tells the numbers up to `m` apart, then all bits below its highest one are set,
so that masking with it is taking a remainder.
-/

namespace Mask

variable {m k : Nat}

/-- A power of two that is no bit of the mask cannot be told from 0. -/
theorem testBit_of_injective (injective : ∀ x ≤ m, ∀ y ≤ m, x &&& m = y &&& m → x = y)
    (le : 2 ^ k ≤ m) : m.testBit k := by
  by_contra unset
  have hidden : 2 ^ k &&& m = 0 &&& m := by
    rw [Nat.two_pow_and, Bool.eq_false_iff.mpr unset, Nat.zero_and]
    simp
  have := injective (2 ^ k) le 0 (Nat.zero_le m) hidden
  exact absurd this (Nat.two_pow_pos k).ne'

theorem exists_pow_of_injective (injective : ∀ x ≤ m, ∀ y ≤ m, x &&& m = y &&& m → x = y) :
    ∃ k, m + 1 = 2 ^ k := by
  refine ⟨m.size, ?_⟩
  have ones : m = 2 ^ m.size - 1 := by
    refine Nat.eq_of_testBit_eq fun i => ?_
    rw [Nat.testBit_two_pow_sub_one]
    by_cases below : i < m.size
    · rw [testBit_of_injective injective (Nat.lt_size.mp below), decide_eq_true below]
    · have small := Nat.size_le.mp (Nat.le_of_not_lt below)
      rw [Nat.testBit_lt_two_pow small, decide_eq_false below]
  have := Nat.two_pow_pos m.size
  omega

end Mask
