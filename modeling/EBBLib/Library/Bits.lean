import Mathlib.Data.List.Basic
import Mathlib.Tactic.Ring

/-!
# The loop over the bits of a mask

The bits that are set in a machine word, in the order in which a loop meets them that tests the
lowest bit and shifts the word to the right until it is 0.
-/

namespace Bits

variable {w : Nat}

/-- The loop, with the number of the bit that is the lowest one now. A word has no bit left
after `fuel` shifts if it has that many bits. -/
def scan : Nat → Nat → BitVec w → List Nat
  | 0, _, _ => []
  | fuel + 1, i, mask =>
      if mask = 0#w then []
      else if mask.getLsbD 0 then i :: scan fuel (i + 1) (mask >>> 1)
      else scan fuel (i + 1) (mask >>> 1)

/-- The bits that are set, from the lowest one on. -/
def set (mask : BitVec w) : List Nat := scan w 0 mask

section

variable {mask : BitVec w} {fuel i j : Nat}

theorem mem_scan (enough : ∀ k, mask.getLsbD k → k < fuel) :
    j ∈ scan fuel i mask ↔ i ≤ j ∧ mask.getLsbD (j - i) := by
  induction fuel generalizing i mask with
  | zero =>
      have zero : ∀ k, mask.getLsbD k = false := fun k =>
        Bool.eq_false_iff.mpr fun is_set => Nat.not_lt_zero k (enough k is_set)
      simp [scan, zero]
  | succ fuel ih =>
      have shifted : ∀ k, (mask >>> 1).getLsbD k = mask.getLsbD (1 + k) := fun k =>
        BitVec.getLsbD_ushiftRight ..
      have rest : j ∈ scan fuel (i + 1) (mask >>> 1) ↔
          i + 1 ≤ j ∧ (mask >>> 1).getLsbD (j - (i + 1)) := ih fun k is_set => by
        rw [shifted] at is_set
        have := enough _ is_set
        omega
      -- The lowest bit is the number `i`, and the others are those of the shifted word.
      have cut (above : i + 1 ≤ j) : mask.getLsbD (1 + (j - (i + 1))) = mask.getLsbD (j - i) := by
        rw [show 1 + (j - (i + 1)) = j - i by omega]
      rw [scan]
      split_ifs with none low
      · simp [none]
      · rw [List.mem_cons, rest, shifted]
        constructor
        · rintro (rfl | ⟨above, is_set⟩)
          · simpa using low
          · exact ⟨by omega, cut above ▸ is_set⟩
        · rintro ⟨above, is_set⟩
          obtain rfl | later : j = i ∨ i + 1 ≤ j := by omega
          · exact .inl rfl
          · exact .inr ⟨later, (cut later).symm ▸ is_set⟩
      · rw [rest, shifted]
        constructor
        · rintro ⟨above, is_set⟩
          exact ⟨by omega, cut above ▸ is_set⟩
        · rintro ⟨above, is_set⟩
          obtain rfl | later : j = i ∨ i + 1 ≤ j := by omega
          · rw [Nat.sub_self] at is_set
            exact absurd is_set low
          · exact ⟨later, (cut later).symm ▸ is_set⟩

@[simp] theorem mem_set : j ∈ set mask ↔ mask.getLsbD j := by
  rw [set, mem_scan fun k is_set => BitVec.lt_of_getLsbD is_set]
  simp

theorem set_eq_nil_iff : set mask = [] ↔ mask = 0#w := by
  rw [List.eq_nil_iff_forall_not_mem]
  constructor
  · intro none
    refine BitVec.eq_of_getLsbD_eq fun i _ => ?_
    rw [BitVec.getLsbD_zero, Bool.eq_false_iff]
    exact fun is_set => none i (mem_set.mpr is_set)
  · rintro rfl
    simp

theorem scan_nodup : (scan fuel i mask).Nodup ∧ ∀ j ∈ scan fuel i mask, i ≤ j := by
  induction fuel generalizing i mask with
  | zero => simp [scan]
  | succ fuel ih =>
      obtain ⟨nodup, above⟩ : (scan fuel (i + 1) (mask >>> 1)).Nodup ∧
          ∀ j ∈ scan fuel (i + 1) (mask >>> 1), i + 1 ≤ j := ih
      rw [scan]
      split_ifs
      · simp
      · refine ⟨List.nodup_cons.mpr ⟨fun member => ?_, nodup⟩,
          List.forall_mem_cons.mpr ⟨le_rfl, ?_⟩⟩
        · exact absurd (above i member) (by omega)
        · exact fun j member => Nat.le_of_succ_le (above j member)
      · exact ⟨nodup, fun j member => Nat.le_of_succ_le (above j member)⟩

theorem set_nodup : (set mask).Nodup := scan_nodup.1

end

/-- A single bit. -/
theorem getLsbD_one_shiftLeft {i j : Nat} (bound : i < w) :
    (1#w <<< i).getLsbD j = decide (j = i) := by
  rw [BitVec.getLsbD_shiftLeft]
  by_cases same : j = i
  · subst same
    simp [bound]
    omega
  · obtain below | above := Nat.lt_or_gt_of_ne same
    · simp [below, same]
    · have : j - i ≠ 0 := by omega
      simp [same, this]

end Bits
