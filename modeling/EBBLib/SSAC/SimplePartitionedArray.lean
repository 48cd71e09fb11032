import EBBLib.Library.Mask

/-!
# The placement of queues in `SSACSimplePartitionedArray.C`

The queues of a partitioned cache are spread over the processors. The constructor allocates
the queues of its processor, the first ones getting one more when the number of queues is no
multiple of the number of processors. `partition` finds the processor and the queue there of
an index. It takes a bit mask for the remainder, and it counts the processors without an extra
queue as if there were none with one.
-/

namespace EBBLib.SSACSimplePartitionedArray

/-- The queues that the constructor allocates on processor `myvp`. -/
def queuesOn (numhashqs numproc myvp : Nat) : Nat :=
  if myvp < numhashqs % numproc then numhashqs / numproc + 1 else numhashqs / numproc

/-- `partition`: the processor and the offset of an index. A division by zero has no value. -/
def partition (numhashqs numproc index : Nat) : Option (Nat × Nat) :=
  let overflow := numhashqs % numproc
  let quesperproc := numhashqs / numproc
  if index < overflow * (quesperproc + 1) then
    some (index / (quesperproc + 1), index &&& quesperproc)
  else if quesperproc = 0 then none
  else some (index / quesperproc, index &&& (quesperproc - 1))

/-- Every index has a queue that is allocated, and no other index has the same one. -/
structure Placed (numhashqs numproc : Nat) : Prop where
  allocated : ∀ index < numhashqs, ∃ vp offset,
    partition numhashqs numproc index = some (vp, offset) ∧
      vp < numproc ∧ offset < queuesOn numhashqs numproc vp
  distinct : ∀ i < numhashqs, ∀ j < numhashqs,
    partition numhashqs numproc i = partition numhashqs numproc j → i = j

section

variable {numhashqs numproc index : Nat}

/-- With fewer queues than processors, each of the first processors has one queue. -/
theorem partition_few (few : numhashqs < numproc) (inside : index < numhashqs) :
    partition numhashqs numproc index = some (index, 0) := by
  rw [partition, Nat.mod_eq_of_lt few, Nat.div_eq_of_lt few]
  simp [inside]

/-- Without an extra queue anywhere, only the second regime is used. -/
theorem partition_even {quesperproc : Nat} (positive : 0 < numproc) (filled : 0 < quesperproc) :
    partition (numproc * quesperproc) numproc index =
      some (index / quesperproc, index &&& (quesperproc - 1)) := by
  rw [partition, Nat.mul_mod_right, Nat.mul_div_cancel_left _ positive]
  simp [filled.ne']

/-- When some processors have an extra queue and every processor has one at all, the last
index is sent to a processor that does not exist. -/
theorem partition_last (extra : 0 < numhashqs % numproc) (positive : 0 < numproc)
    (filled : 0 < numhashqs / numproc) :
    ∃ vp offset, partition numhashqs numproc (numhashqs - 1) = some (vp, offset) ∧
      numproc ≤ vp := by
  have split : numproc * (numhashqs / numproc) + numhashqs % numproc = numhashqs :=
    Nat.div_add_mod numhashqs numproc
  have fewer : (numhashqs % numproc + 1) * (numhashqs / numproc) ≤
      numproc * (numhashqs / numproc) := Nat.mul_le_mul_right _ (Nat.mod_lt _ positive)
  have second : ¬ numhashqs - 1 < numhashqs % numproc * (numhashqs / numproc + 1) := by
    rw [Nat.add_one_mul] at fewer
    rw [Nat.mul_add_one]
    omega
  have run : partition numhashqs numproc (numhashqs - 1) =
      some ((numhashqs - 1) / (numhashqs / numproc),
        (numhashqs - 1) &&& (numhashqs / numproc - 1)) := by
    simp only [partition, if_neg second, if_neg filled.ne']
  refine ⟨_, _, run, ?_⟩
  rw [Nat.le_div_iff_mul_le filled]
  omega

theorem placed_few (few : numhashqs < numproc) : Placed numhashqs numproc := by
  refine ⟨fun index inside => ⟨index, 0, partition_few few inside, by omega, ?_⟩,
    fun i hi j hj same => ?_⟩
  · rw [queuesOn, Nat.mod_eq_of_lt few, if_pos inside]
    exact Nat.succ_pos _
  · rw [partition_few few hi, partition_few few hj, Option.some.injEq] at same
    exact congrArg Prod.fst same

/-- A mask of ones is a remainder. -/
theorem placed_pow (positive : 0 < numproc) (k : Nat) : Placed (numproc * 2 ^ k) numproc := by
  have power := Nat.two_pow_pos k
  refine ⟨fun index inside => ⟨_, _, partition_even positive power, ?_, ?_⟩,
    fun i hi j hj same => ?_⟩
  · rwa [Nat.div_lt_iff_lt_mul power]
  · have mask : index &&& (2 ^ k - 1) ≤ 2 ^ k - 1 := Nat.and_le_right
    rw [queuesOn, Nat.mul_mod_right, Nat.mul_div_cancel_left _ positive, if_neg (Nat.not_lt_zero _)]
    omega
  · rw [partition_even positive power, partition_even positive power, Option.some.injEq,
      Prod.mk.injEq, Nat.and_two_pow_sub_one_eq_mod, Nat.and_two_pow_sub_one_eq_mod] at same
    rw [← Nat.div_add_mod i (2 ^ k), ← Nat.div_add_mod j (2 ^ k), same.1, same.2]

/-- Distinct offsets on processor 0 need a mask of ones. -/
theorem Placed.exists_pow {quesperproc : Nat} (placed : Placed (numproc * quesperproc) numproc)
    (positive : 0 < numproc) (filled : 0 < quesperproc) : ∃ k, quesperproc = 2 ^ k := by
  have fits : quesperproc ≤ numproc * quesperproc := Nat.le_mul_of_pos_left _ positive
  have first : ∀ x ≤ quesperproc - 1, partition (numproc * quesperproc) numproc x =
      some (0, x &&& (quesperproc - 1)) := by
    intro x hx
    rw [partition_even positive filled, Nat.div_eq_of_lt (by omega)]
  obtain ⟨k, power⟩ := Mask.exists_pow_of_injective (m := quesperproc - 1) fun x hx y hy same =>
    placed.distinct x (by omega) y (by omega) (by rw [first x hx, first y hy, same])
  exact ⟨k, by omega⟩

end

/-- The placement is valid if there are fewer queues than processors, or if every processor
gets the same number of queues and this number is a power of two, and in no other case. -/
theorem placed_iff {numhashqs numproc : Nat} (positive : 0 < numproc) :
    Placed numhashqs numproc ↔
      numhashqs < numproc ∨ ∃ k, numhashqs = numproc * 2 ^ k := by
  constructor
  · intro placed
    obtain few | many := Nat.lt_or_ge numhashqs numproc
    · exact .inl few
    · have filled : 0 < numhashqs / numproc := Nat.div_pos many positive
      obtain even | extra := Nat.eq_zero_or_pos (numhashqs % numproc)
      · have split : numproc * (numhashqs / numproc) = numhashqs :=
          Nat.mul_div_cancel' (Nat.dvd_of_mod_eq_zero even)
        rw [← split] at placed
        obtain ⟨k, power⟩ := placed.exists_pow positive filled
        exact .inr ⟨k, by rw [← power, split]⟩
      · obtain ⟨vp, offset, run, beyond⟩ := partition_last extra positive filled
        obtain ⟨vp', offset', run', within, _⟩ := placed.allocated (numhashqs - 1) (by omega)
        rw [run, Option.some.injEq] at run'
        cases run'
        omega
  · rintro (few | ⟨k, rfl⟩)
    · exact placed_few few
    · exact placed_pow positive k

/-- Eight queues on two processors. -/
theorem placed_iff_sample : Placed 8 2 ↔ 8 < 2 ∨ ∃ k, 8 = 2 * 2 ^ k :=
  placed_iff (by decide)

/-- Of five queues on two processors, two have the same place and one is on a processor that
does not exist. -/
theorem exists_not_placed :
    partition 5 2 0 = partition 5 2 1 ∧ partition 5 2 4 = some (2, 0) ∧ ¬ Placed 5 2 := by
  refine ⟨by decide, by decide, fun placed => ?_⟩
  have clash := placed.distinct 0 (by decide) 1 (by decide) (by decide)
  cases clash

end EBBLib.SSACSimplePartitionedArray
