import Mathlib.Data.Nat.Basic
import Mathlib.Tactic.Ring

/-!
# Unsigned 64-bit arithmetic on natural numbers

A word is a natural number below `2 ^ 64`, and the operations wrap explicitly.
Where a result fits, `add_of_lt` and `sub_of_le` replace the wrapping operation
by the ordinary one, so that the remaining goals are linear arithmetic.
-/

namespace Word64

/-- Wrapping addition. -/
def add (a b : Nat) : Nat := (a + b) % 2 ^ 64

/-- Wrapping subtraction. -/
def sub (a b : Nat) : Nat := (a + (2 ^ 64 - b % 2 ^ 64)) % 2 ^ 64

theorem add_lt (a b : Nat) : add a b < 2 ^ 64 := Nat.mod_lt _ (by decide)

theorem add_of_lt {a b : Nat} (fits : a + b < 2 ^ 64) : add a b = a + b :=
  Nat.mod_eq_of_lt fits

theorem sub_of_le {a b : Nat} (le : b ≤ a) (fits : a < 2 ^ 64) : sub a b = a - b := by
  unfold sub
  omega

end Word64
