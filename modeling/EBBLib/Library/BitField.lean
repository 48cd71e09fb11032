import Mathlib.Tactic.Common

/-!
# Bit fields of a word

`get` reads the field of width `w` that starts at a bit of a word, and `set` writes it with a
mask, leaving the other bits alone. Fields that do not overlap are independent cells.
-/

namespace BitField

variable {n w w' : Nat}

/-- The bits of a field. -/
def get (start w : Nat) (x : BitVec n) : BitVec w := x.extractLsb' start w

/-- The word with ones in a field. -/
def mask (n start w : Nat) : BitVec n := (BitVec.allOnes w).setWidth n <<< start

/-- The word with another value in a field. -/
def set (start : Nat) (v : BitVec w) (x : BitVec n) : BitVec n :=
  (x &&& ~~~mask n start w) ||| v.setWidth n <<< start

/-- Two fields have no bit in common. -/
def Apart (start w start' w' : Nat) : Prop := start + w ≤ start' ∨ start' + w' ≤ start

instance (start w start' w' : Nat) : Decidable (Apart start w start' w') :=
  inferInstanceAs (Decidable (_ ∨ _))

variable {start start' i : Nat} {v : BitVec w} {x : BitVec n}

theorem getLsbD_get : (get start w x).getLsbD i = (decide (i < w) && x.getLsbD (start + i)) :=
  BitVec.getLsbD_extractLsb' start w x i

theorem getLsbD_mask (fits : start + w ≤ n) :
    (mask n start w).getLsbD i = decide (start ≤ i ∧ i < start + w) := by
  rw [mask, BitVec.getLsbD_shiftLeft, BitVec.getLsbD_setWidth, BitVec.getLsbD_allOnes]
  by_cases inside : start ≤ i ∧ i < start + w
  · obtain ⟨lower, upper⟩ := inside
    simp [lower, upper, show i < n by omega, show i - start < n by omega,
      show i - start < w by omega]
  · rw [decide_eq_false inside]
    by_cases lower : start ≤ i
    · simp [show ¬ i - start < w by omega]
    · simp [Nat.lt_of_not_le lower]

/-- Writing a field changes its own bits. -/
theorem getLsbD_set (fits : start + w ≤ n) :
    (set start v x).getLsbD i =
      if start ≤ i ∧ i < start + w then v.getLsbD (i - start) else x.getLsbD i := by
  rw [set, BitVec.getLsbD_or, BitVec.getLsbD_and, BitVec.getLsbD_not, getLsbD_mask fits,
    BitVec.getLsbD_shiftLeft, BitVec.getLsbD_setWidth]
  by_cases inside : start ≤ i ∧ i < start + w
  · obtain ⟨lower, upper⟩ := inside
    simp [lower, upper, show i < n by omega, show i - start < n by omega]
  · rw [decide_eq_false inside, if_neg inside]
    by_cases within : i < n
    · by_cases lower : start ≤ i
      · simp [within, BitVec.getLsbD_of_ge v (i - start) (by omega)]
      · simp [within, Nat.lt_of_not_le lower]
    · simp [within, BitVec.getLsbD_of_ge x i (Nat.le_of_not_lt within)]

/-- A field that was written reads back. -/
theorem get_set (fits : start + w ≤ n) : get start w (set start v x) = v := by
  refine BitVec.eq_of_getLsbD_eq fun i hi => ?_
  rw [getLsbD_get, getLsbD_set fits, if_pos (by omega), Nat.add_sub_cancel_left,
    decide_eq_true hi, Bool.true_and]

/-- The fields apart from it stay. -/
theorem get_set_of_apart (fits : start + w ≤ n) (apart : Apart start w start' w') :
    get start' w' (set start v x) = get start' w' x := by
  unfold Apart at apart
  refine BitVec.eq_of_getLsbD_eq fun i hi => ?_
  rw [getLsbD_get, getLsbD_get, getLsbD_set fits, if_neg (by omega)]

end BitField
