import EBBLib.Trans.Dispatch

/-!
# The cores that cache an id

`EBBCacheObj` marks the calling core in the bit vector of the id, whose word it finds through
its own local entry. The vector is exactly the set of cores that have called it. The test of
the vector is not: it takes the union of the vector and the mask of a core instead of their
intersection, so that every core passes it.
-/

namespace EBBLib.Trans

variable (I : Image)

/-- A call of `EBBCacheObj` by a core on its local entry for the id of a slot. -/
structure CacheCall where
  core : Nat
  slot : Slot
  obj : Nat
deriving DecidableEq, Repr

/-- The calls of a history, one after the other. -/
def cacheAll (calls : List CacheCall) (mem : Mem) : Mem :=
  calls.foldl (fun mem call =>
    ebbCacheObj I call.core mem (I.id2lt call.core (I.id call.slot)) call.obj) mem

/-- The core has called `EBBCacheObj` on its local entry for the id. -/
def Cached (calls : List CacheCall) (k : Slot) (c : Nat) : Prop :=
  ∃ call ∈ calls, call.slot = k ∧ call.core = c

instance (calls : List CacheCall) (k : Slot) (c : Nat) : Decidable (Cached calls k c) :=
  inferInstanceAs (Decidable (∃ call ∈ calls, _))

section

variable {I} {mem : Mem} {k : Slot} {c : Nat} {call : CacheCall} {calls : List CacheCall}

@[simp] theorem not_cached_nil : ¬ Cached [] k c := by simp [Cached]

@[simp] theorem cached_cons :
    Cached (call :: calls) k c ↔ (call.slot = k ∧ call.core = c) ∨ Cached calls k c := by
  simp [Cached]

/-- A call adds its core to the vector of its own id. -/
theorem testBit_ebbCacheObj (small : call.core < maxPics) :
    (ebbCacheObj I call.core mem (I.id2lt call.core (I.id call.slot)) call.obj
        (I.globalEntry k + 24)).testBit c ↔
      (call.slot = k ∧ call.core = c) ∨ (mem (I.globalEntry k + 24)).testBit c := by
  have apart : I.globalEntry k + 24 ≠ I.localEntry call.core call.slot :=
    I.globalEntry_word_ne_localEntry (by decide)
  rw [I.id2lt_id small, ebbCacheObj_apply small]
  by_cases same : call.slot = k
  · subst same
    simp [Nat.testBit_two_pow, or_comm]
  · have other : I.globalEntry k + 24 ≠ I.globalEntry call.slot + 24 := fun clash =>
      same ((I.globalEntry_inj (by decide) (by decide)).mp clash).1.symm
    rw [if_neg other, if_neg apart]
    simp [same]

theorem testBit_cacheAll (small : ∀ call ∈ calls, call.core < maxPics) :
    (cacheAll I calls mem (I.globalEntry k + 24)).testBit c ↔
      Cached calls k c ∨ (mem (I.globalEntry k + 24)).testBit c := by
  induction calls generalizing mem with
  | nil => simp [cacheAll]
  | cons call calls ih =>
      obtain ⟨first, rest⟩ := List.forall_mem_cons.mp small
      rw [cached_cons, or_comm (a := call.slot = k ∧ call.core = c), or_assoc,
        ← testBit_ebbCacheObj first]
      exact ih rest

/-- From zeroed vectors on, the vector of an id is exactly the set of the cores that have
called `EBBCacheObj` for the id. -/
theorem corebv_exact (small : ∀ call ∈ calls, call.core < maxPics)
    (zero : ∀ k, mem (I.globalEntry k + 24) = 0) :
    (cacheAll I calls mem (I.globalEntry k + 24)).testBit c ↔ Cached calls k c := by
  rw [testBit_cacheAll small, zero]
  simp

end

/-- The test tells the cores that cache an id from the others only on the former: after any
history, it is right about a core and an id if and only if the core has called `EBBCacheObj`
for the id. -/
theorem test_exact_iff (calls : List CacheCall) (mem : Mem) (k : Slot) (c : Nat) :
    (transTestCoreUsed (cacheAll I calls mem) (I.id2gt (I.id k)) c = true ↔ Cached calls k c) ↔
      Cached calls k c := by
  rw [transTestCoreUsed, coreUsed_eq]
  simp only [true_iff]

/-- Core 1 caches the sample id, and the test succeeds for core 0 as well. -/
theorem exists_test_inexact :
    ∃ calls : List CacheCall, (∀ call ∈ calls, call.core < maxPics) ∧
      (cacheAll sampleImage calls (fun _ => 0) (sampleImage.globalEntry sampleSlot + 24)) = 2 ∧
      ¬ (transTestCoreUsed (cacheAll sampleImage calls fun _ => 0)
        (sampleImage.id2gt (sampleImage.id sampleSlot)) 0 = true ↔ Cached calls sampleSlot 0) := by
  refine ⟨[⟨1, sampleSlot, 2 ^ 41⟩], by decide, by decide, ?_⟩
  rw [transTestCoreUsed, coreUsed_eq]
  decide

end EBBLib.Trans
