import EBBLib.Trans.Dispatch
import Mathlib.Data.List.Perm.Lattice
import Mathlib.Data.Nat.ModEq

/-!
# The walk of an invalidation over the cores

`TransEBBIdInvalidateCaches` starts at the calling core and goes on to the next core until
it is back. `visitFrom` is its loop with the cores that it has visited, which are all the
started ones, each of them once.
-/

namespace EBBLib.Trans

variable (I : Image)

/-- The loop of `TransEBBIdInvalidateCaches` with its assertion that an entry is not at
address 0, and with the cores that it has visited. -/
def visitFrom (numlpics myid id : Nat) : Nat → Nat → Mem → List Nat → Option (Mem × List Nat)
  | 0, _, _, _ => none
  | fuel + 1, picId, mem, visited =>
      let used := transTestCoreUsed mem (I.id2gt id) picId
      let lt := I.id2rlt picId id
      if used ∧ lt = 0 then none
      else
        let mem := if used then ebbInitLTrans I mem lt else mem
        let next := getNextLpic numlpics picId
        if next = myid then some (mem, visited ++ [picId])
        else visitFrom numlpics myid id fuel next mem (visited ++ [picId])

/-- What an invalidation of the id of slot `k` does to memory. -/
structure Invalidated (n : Nat) (k : Slot) (mem mem' : Mem) : Prop where
  /-- The local entries of the id are in their default state. -/
  reset : ∀ d < n, Default I mem' (I.localEntry d k)
  /-- The other local entries stay. -/
  others : ∀ d l, (d < n → l ≠ k) → ∀ i < transSize,
    mem' (I.localEntry d l + i) = mem (I.localEntry d l + i)
  /-- The global entries stay. -/
  globals : ∀ l, ∀ i < transSize, mem' (I.globalEntry l + i) = mem (I.globalEntry l + i)

section

variable {I} {n myid : Nat} {k : Slot}

theorem id2rlt_ne_zero {d : Nat} (hd : d < maxPics) : I.id2rlt d (I.id k) ≠ 0 := by
  rw [I.id2rlt_id hd]
  simp only [TransMem.localEntry, tblSize]
  omega

/-- The loop visits the cores from its `j`-th iteration on in the order of their ids. -/
theorem visitFrom_eq (hn : n ≤ maxPics) (hc : myid < n) :
    ∀ (fuel j : Nat) (mem : Mem) (visited : List Nat), j + fuel = n →
      visitFrom I n myid (I.id k) fuel ((myid + j) % n) mem visited =
        (invalidateFrom I n myid (I.id k) fuel ((myid + j) % n) mem).map fun mem' =>
          (mem', visited ++ (List.range' j fuel).map fun i => (myid + i) % n) := by
  intro fuel
  induction fuel with
  | zero => exact fun _ _ _ _ => rfl
  | succ fuel ih =>
      intro j mem visited count
      have pic : (myid + j) % n < maxPics :=
        Nat.lt_of_lt_of_le (Nat.mod_lt _ (by omega)) hn
      have entry := id2rlt_ne_zero (I := I) (k := k) pic
      simp only [visitFrom, invalidateFrom, entry, and_false, if_false, getNextLpic_mod,
        List.range'_succ, List.map_cons]
      by_cases last : j + 1 = n
      · have wrapped : (myid + (j + 1)) % n = myid := by rw [last, visited_round hc]
        obtain rfl : fuel = 0 := by omega
        simp only [wrapped, if_true, Option.map_some, List.range'_zero, List.map_nil]
      · have ahead : (myid + (j + 1)) % n ≠ myid := visited_ne hc (by omega) (by omega)
        rw [if_neg ahead, if_neg ahead, ih (j + 1) _ _ (by omega)]
        simp only [List.append_assoc, List.singleton_append]

/-- A round from any core visits each core once. -/
theorem round_perm (hc : myid < n) :
    ((List.range n).map fun i => (myid + i) % n).Perm (List.range n) := by
  have nodup : ((List.range n).map fun i => (myid + i) % n).Nodup := by
    refine List.Nodup.map_on (fun i hi j hj same => ?_) List.nodup_range
    have congr : i % n = j % n := Nat.ModEq.add_left_cancel' myid same
    rwa [Nat.mod_eq_of_lt (List.mem_range.mp hi), Nat.mod_eq_of_lt (List.mem_range.mp hj)] at congr
  refine (List.perm_ext_iff_of_nodup nodup List.nodup_range).mpr fun c => ?_
  simp only [List.mem_map, List.mem_range]
  constructor
  · rintro ⟨i, _, rfl⟩
    exact Nat.mod_lt _ (by omega)
  · exact exists_visit hc

theorem invalidated_of_change {mem mem' : Mem}
    (reset : ∀ d < n, Default I mem' (I.localEntry d k))
    (change : ∀ q, mem' q = mem q ∨ (∃ c < n, q = I.localEntry c k ∧ mem' q = q + 8) ∨
      ∃ c < n, q = I.localEntry c k + 8 ∧ mem' q = I.defFT) :
    Invalidated I n k mem mem' := by
  refine ⟨reset, fun d l other i hi => ?_, fun l i hi => ?_⟩
  · rcases change (I.localEntry d l + i) with same | ⟨c, hc, clash, _⟩ | ⟨c, hc, clash, _⟩
    · exact same
    · obtain ⟨rfl, same, _⟩ := (I.localEntry_inj (j := 0) hi (by decide)).mp clash
      exact absurd same (other hc)
    · obtain ⟨rfl, same, _⟩ := (I.localEntry_inj hi (by decide)).mp clash
      exact absurd same (other hc)
  · rcases change (I.globalEntry l + i) with same | ⟨c, _, clash, _⟩ | ⟨c, _, clash, _⟩
    · exact same
    · exact absurd clash.symm (I.localEntry_ne_globalEntry (i := 0) hi)
    · exact absurd clash.symm (I.localEntry_ne_globalEntry hi)

end

/-- An invalidation by any core ends after it has visited each started core once. The
local entries of the id are then in their default state on these cores, and nothing else
in the tables has changed. The bit vectors may hold anything, since the test that the walk
makes succeeds for every core. -/
theorem invalidate_each_core {n c : Nat} (hn : n ≤ maxPics) (hc : c < n) (k : Slot) (mem : Mem) :
    ∃ mem' visited, visitFrom I n c (I.id k) n c mem [] = some (mem', visited) ∧
      transEBBIdInvalidateCaches I n c (I.id k) mem = some mem' ∧
      visited.Perm (List.range n) ∧ Invalidated I n k mem mem' := by
  have start : (c + 0) % n = c := Nat.mod_eq_of_lt hc
  obtain ⟨mem', run, reset, change⟩ := invalidateFrom_spec (I := I) (k := k) hn hc n 0 mem
    (by omega) (by omega)
  have visit := visitFrom_eq (I := I) (k := k) hn hc n 0 mem [] (by omega)
  rw [run, start] at visit
  rw [start] at run
  refine ⟨mem', _, visit, run, ?_, invalidated_of_change (fun d hd => ?_) change⟩
  · rw [List.nil_append, ← List.range_eq_range']
    exact round_perm hc
  · obtain ⟨i, hi, rfl⟩ := exists_visit hc hd
    exact reset i (Nat.zero_le i) hi

/-- Core 1 of two cores invalidates the sample id. -/
theorem invalidate_each_core_sample :
    ∃ mem' visited, visitFrom sampleImage 2 1 (sampleImage.id sampleSlot) 2 1 sampleMem [] =
        some (mem', visited) ∧
      transEBBIdInvalidateCaches sampleImage 2 1 (sampleImage.id sampleSlot) sampleMem =
        some mem' ∧
      visited.Perm (List.range 2) ∧ Invalidated sampleImage 2 sampleSlot sampleMem mem' :=
  invalidate_each_core sampleImage (by decide) (by decide) sampleSlot sampleMem

end EBBLib.Trans
