import EBBLib.SSAC.Sets
import EBBLib.Types

/-!
# What a caller of `get` is told

`get` sets the class code of its result to 1 with an entry and to 0 without one. The macro
for that is empty, so the result is the same in both cases, and a refused caller goes on
with the entry that it had before.
-/

namespace EBBLib.SSACSimpleSharedArray.Calls

open CacheObjectIdSimple HashQueues

/-- `SET_CLSCD` of `EBBKludge.H`. -/
def setClscd (rtn : EBBRC) (_clscd : Nat) : EBBRC := rtn

/-- The result of `get` and its variable `ce`, a queue and a position there. A `get` that
tries again has not returned. -/
def returned (q : Nat) (ce : Option (Nat × Nat)) : Got → Option (EBBRC × Option (Nat × Nat))
  | .entry i => some (setClscd 0 1, some (q, i))
  | .noFree => some (setClscd 0 0, ce)
  | .again => none

/-- `get` as its caller sees it. -/
def getCall (c : SSAC) (store : Store) (id : CacheObjectIdSimple) (type : GetType)
    (ce : Option (Nat × Nat)) : Option (EBBRC × Option (Nat × Nat) × SSAC) :=
  (get c store id type).bind fun (got, cache, _) =>
    (returned (index id c.numhashqs) ce got).map fun (rc, ce) => (rc, ce, cache)

/-- A `get` hands out an entry with this code. -/
def MeansSuccess (n a : Nat) (rc : EBBRC) : Prop :=
  ∃ s id type i cache store ce ce', (machine n a).Reach s ∧
    get s.cache s.store id type = some (.entry i, cache, store) ∧
    returned (index id n) ce (.entry i) = some (rc, ce')

/-- The id is in no entry of its queue, and all of these are BUSY. -/
def Full (c : SSAC) (id : CacheObjectIdSimple) : Prop :=
  ∃ es, (c.hashqs (index id c.numhashqs)).entries = some es ∧
    ∀ e ∈ es, e.busy ∧ e.id ≠ id

/-- What a `get` should guarantee when it returns: a caller that takes its code for a success
has an entry of the id, and one that is refused can see that. -/
structure Tells (n a : Nat) (c : SSAC) (id : CacheObjectIdSimple) (ce : Option (Nat × Nat))
    (rc : EBBRC) (ce' : Option (Nat × Nat)) (d : SSAC) : Prop where
  success : MeansSuccess n a rc → ∃ q i, ce' = some (q, i) ∧ (d.slot q i).id = id
  failure : Full c id → ¬ MeansSuccess n a rc ∧ ce' = ce ∧ d.hashqs = c.hashqs

section

variable {n a : Nat} {s : State} {id : CacheObjectIdSimple} {type : GetType}
  {ce ce' : Option (Nat × Nat)} {rc : EBBRC} {d : SSAC}

theorem search_eq_none {es : List CacheEntrySimple} (absent : ∀ e ∈ es, e.id ≠ id) :
    search id es = none := by
  induction es with
  | nil => rfl
  | cons e es ih =>
      rw [List.forall_mem_cons] at absent
      rw [search, if_neg (Ne.symm absent.1), ih absent.2, Option.map_none]

/-- A new cache hands out its first entry. -/
theorem meansSuccess_zero (n : Nat) {a : Nat} (ha : 0 < a) : MeansSuccess n a 0 := by
  obtain ⟨k, rfl⟩ := Nat.exists_eq_add_one.mpr ha
  have absent : search 0 (List.replicate (k + 1) CacheEntrySimple.new) = none := by
    apply search_eq_none
    intro e mem
    rw [List.eq_of_mem_replicate mem]
    decide
  have first : lruentry (List.replicate (k + 1) CacheEntrySimple.new) = some 0 := rfl
  have isValid : valid 0 := rfl
  have handed : ∃ cache store, get (fresh n (k + 1)).cache (fresh n (k + 1)).store 0 .getForRead =
      some (.entry 0, cache, store) := by
    simp only [get, isValid, if_true, fresh, create, ensure, HashQueues.new, Option.isNone_none,
      HashQueues.init, Option.bind_some, getLocked, absent, first, access]
    exact ⟨_, _, rfl⟩
  obtain ⟨cache, store, run⟩ := handed
  exact ⟨_, 0, .getForRead, 0, cache, store, none, _, .init ⟨_, rfl⟩, run, rfl⟩

/-- A refused caller gets the code of a success, and all stays as it is. -/
theorem getCall_of_full (isValid : valid id) (full : Full s.cache id) :
    getCall s.cache s.store id type ce = some (0, ce, s.cache) := by
  obtain ⟨es, entries, all⟩ := full
  have absent := search_eq_none fun e mem => (all e mem).2
  have busy := lruentry_none_iff.mpr fun e mem => (all e mem).1
  have ready : ensure (s.cache.hashqs (index id s.cache.numhashqs)) s.cache.associativity =
      some (s.cache.hashqs (index id s.cache.numhashqs)) := by simp [ensure, entries]
  have same : s.cache.setQueue (index id s.cache.numhashqs)
      (s.cache.hashqs (index id s.cache.numhashqs)) = s.cache := by simp [SSAC.setQueue]
  simp only [getCall, get, isValid, if_true, ready, Option.bind_some, getLocked, entries, absent,
    busy, Option.map_some, same]
  rfl

/-- Every other caller gets an entry of the id. -/
theorem getCall_of_not_full (run : (machine n a).Reach s) (ha : 0 < a)
    (room : ¬ Full s.cache id)
    (ret : getCall s.cache s.store id type ce = some (rc, ce', d)) :
    ∃ q i, ce' = some (q, i) ∧ (d.slot q i).id = id := by
  have inv := inv_reach run
  obtain ⟨⟨got, cache, store⟩, ran, ret⟩ := Option.bind_eq_some_iff.mp ret
  obtain ⟨isValid, ran⟩ := Option.ite_none_right_eq_some.mp ran
  obtain ⟨⟨got, hashq, store'⟩, ran, same⟩ := Option.map_eq_some_iff.mp ran
  cases same
  obtain ⟨hashq₀, ready, ran⟩ := Option.bind_eq_some_iff.mp ran
  obtain ⟨es, rfl, set, length, slots, origin⟩ := inv.ensure ready
  have home : index id n = index id s.cache.numhashqs := by rw [inv.queues]
  obtain ⟨count', es', rfl, attempt⟩ := set.getLocked (inv.bounded _) isValid home ran
  cases got with
  | entry i =>
      cases ret
      exact ⟨_, i, rfl, (slot_setQueue s.cache _ count' es' i).symm ▸ (attempt.handed i rfl).2.1⟩
  | again => cases ret
  | noFree =>
      have full := attempt.refused rfl
      cases origin with
      | inl none =>
          -- The entries of a new queue are free.
          have busy := (full _ (entryAt_mem (length ▸ ha))).1
          rw [slots, SSAC.slot, none] at busy
          cases busy
      | inr entries => exact absurd ⟨es, entries, full⟩ room

/-- A `get` tells success from failure unless its queue is full. -/
theorem tells_iff (ha : 0 < a) (run : (machine n a).Reach s) (isValid : valid id) :
    (∀ rc ce' d, getCall s.cache s.store id type ce = some (rc, ce', d) →
      Tells n a s.cache id ce rc ce' d) ↔ ¬ Full s.cache id := by
  constructor
  · intro tells full
    exact ((tells 0 ce s.cache (getCall_of_full isValid full)).failure full).1
      (meansSuccess_zero n ha)
  · intro room rc ce' d ret
    exact ⟨fun _ => getCall_of_not_full run ha room ret, fun full => absurd full room⟩

/-- A `get` of a new cache tells its caller that it has an entry. -/
theorem tells_iff_sample : ∃ d,
    getCall (fresh 1 1).cache (fresh 1 1).store 6 .getForWrite none = some (0, some (0, 0), d) ∧
    Tells 1 1 (fresh 1 1).cache 6 none 0 (some (0, 0)) d := by
  have ran : (getCall (fresh 1 1).cache (fresh 1 1).store 6 .getForWrite none).map
      (fun r => (r.1, r.2.1)) = some (0, some (0, 0)) := by decide +kernel
  obtain ⟨⟨rc, ce', d⟩, ret, same⟩ := Option.map_eq_some_iff.mp ran
  cases same
  have room : ¬ Full (fresh 1 1).cache 6 := fun ⟨_, entries, _⟩ => nomatch entries
  exact ⟨d, ret, (tells_iff (by decide) (.init ⟨_, rfl⟩) (by decide)).mpr room _ _ d ret⟩

/-- A client has put the only entry back, and another one holds it. The first client asks for
id 6, gets the code of a success and has its old entry, which the other client holds for id 5. -/
theorem exists_not_tells : ∃ s rc d, (machine 1 1).Reach s ∧ (0, 0) ∈ s.held ∧
    (s.cache.slot 0 0).id = 5 ∧
    getCall s.cache s.store 6 .getForWrite (some (0, 0)) = some (rc, some (0, 0), d) ∧
    ¬ Tells 1 1 s.cache 6 (some (0, 0)) rc (some (0, 0)) d := by
  have ran : ((machine 1 1).exec (fresh 1 1) [.get 5 .getForWrite, .putback 0 0 .keep,
      .get 5 .getForWrite]).map (fun s => (s.held, s.cache.hashqs 0)) =
      some ([(0, 0)], ⟨2, some [⟨5, true, false, 2, 5⟩]⟩) := by decide +kernel
  obtain ⟨s, run, final⟩ := Option.map_eq_some_iff.mp ran
  obtain ⟨held, queue⟩ := Prod.mk.inj final
  have reach : (machine 1 1).Reach s := Machine.reachVia_of_execVia ⟨_, rfl⟩ run
  have home : index 6 s.cache.numhashqs = 0 := by rw [(inv_reach reach).queues]; rfl
  have entries : (s.cache.hashqs 0).entries = some [⟨5, true, false, 2, 5⟩] := by rw [queue]
  have full : Full s.cache 6 := ⟨_, by rw [home]; exact entries, by decide⟩
  refine ⟨s, 0, s.cache, reach, by simp [held], by rw [slot_eq entries]; rfl,
    getCall_of_full (by decide) full, ?_⟩
  intro tells
  exact (tells.failure full).1 (meansSuccess_zero 1 (by decide))

end

end EBBLib.SSACSimpleSharedArray.Calls
