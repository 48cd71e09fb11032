import EBBLib.Library.Transition
import EBBLib.SSAC.Flush

/-!
# The sets of a cache

Clients call `get`, `dirty`, `putback` and `flush` one after the other. A `get` for writing
gives a hold on the entry, which lasts until its `putback`, so several entries may be held
at a time.

`QueueSet` is the invariant of one queue. An operation replaces one entry of one queue,
and `QueueSet.replace` says when that keeps the invariant.
-/

namespace EBBLib.SSACSimpleSharedArray.Calls

open CacheObjectIdSimple HashQueues

/-- The cache between two calls, and the entries that are held for writing. -/
structure State where
  cache : SSAC
  store : Store
  held : List (Nat × Nat)

inductive Call where
  | get (id : CacheObjectIdSimple) (type : GetType)
  /-- `entry->data = v; entry->dirty()` by the holder. -/
  | dirty (q j v : Nat)
  | putback (q j : Nat) (flag : PutFlag)
  | flush
deriving DecidableEq, Repr

namespace State

/-- One call. A `get` that finds its entry BUSY does not return and leaves all as it is. -/
def step (s : State) : Call → Option State
  | .get id type =>
      (SSACSimpleSharedArray.get s.cache s.store id type).map fun (got, cache, store) =>
        match got with
        | .entry i =>
            let entry := (index id cache.numhashqs, i)
            { cache, store, held := if type = .getForWrite then entry :: s.held else s.held }
        | .noFree => { s with cache, store }
        | .again => { s with cache, store }
  | .dirty q j v =>
      if (q, j) ∈ s.held then
        (SSACSimpleSharedArray.dirty s.cache q j v).map fun cache => { s with cache }
      else none
  | .putback q j flag =>
      if (q, j) ∈ s.held then
        (SSACSimpleSharedArray.putback s.cache q j flag).map fun cache =>
          { s with cache, held := s.held.erase (q, j) }
      else none
  | .flush =>
      (SSACSimpleSharedArray.flush s.cache s.store).map fun (cache, store) =>
        { s with cache, store }

end State

/-- Calls on a new cache of `n` queues with `a` entries each, over any store. -/
def machine (n a : Nat) : Machine State Call where
  init s := ∃ store, s = { cache := create n a, store, held := [] }
  step := State.step

/-- What the entries of queue `q` should guarantee, when its access count is `count`. -/
structure QueueSet (n q count : Nat) (es : List CacheEntrySimple) : Prop where
  distinct : es.Pairwise fun a b => valid a.id → a.id ≠ b.id
  placed : ∀ e ∈ es, valid e.id → index e.id n = q
  unused : ∀ e ∈ es, valid e.id = false → e.dirty = false ∧ e.busy = false ∧ e.lastused = 0
  recent : ∀ e ∈ es, e.lastused ≤ count

namespace QueueSet

variable {n q count count' : Nat} {pre post : List CacheEntrySimple} {e e' : CacheEntrySimple}

/-- The rule for an operation: it replaces one entry, and may count an access. -/
theorem replace (r : QueueSet n q count (pre ++ e :: post)) (more : count ≤ count')
    (apart : valid e'.id → ∀ d ∈ pre ++ post, d.id ≠ e'.id)
    (placed : valid e'.id → index e'.id n = q)
    (unused : valid e'.id = false → e'.dirty = false ∧ e'.busy = false ∧ e'.lastused = 0)
    (recent : e'.lastused ≤ count') : QueueSet n q count' (pre ++ e' :: post) := by
  have old : ∀ d ∈ pre ++ post, d ∈ pre ++ e :: post := fun d mem =>
    List.perm_middle.mem_iff.mpr (List.mem_cons_of_mem e mem)
  have cases : ∀ d ∈ pre ++ e' :: post, d = e' ∨ d ∈ pre ++ post := fun d mem =>
    List.mem_cons.mp (List.perm_middle.mem_iff.mp mem)
  refine ⟨DistinctIds.replace r.distinct apart, ?_, ?_, ?_⟩
  · intro d mem
    obtain rfl | other := cases d mem
    · exact placed
    · exact r.placed d (old d other)
  · intro d mem
    obtain rfl | other := cases d mem
    · exact unused
    · exact r.unused d (old d other)
  · intro d mem
    obtain rfl | other := cases d mem
    · exact recent
    · exact Nat.le_trans (r.recent d (old d other)) more

/-- The ids of the other entries differ from the id of a valid entry. -/
theorem others (r : QueueSet n q count (pre ++ e :: post)) (isValid : valid e.id) :
    ∀ d ∈ pre ++ post, d.id ≠ e.id :=
  DistinctIds.others r.distinct isValid

theorem valid_of_busy (r : QueueSet n q count (pre ++ e :: post)) (busy : e.busy) :
    valid e.id := by
  by_contra unused
  have idle := (r.unused e (by simp) (Bool.not_eq_true _ ▸ unused)).2.1
  rw [busy] at idle
  cases idle

/-- An operation that keeps the id of a valid entry. -/
theorem relabel (r : QueueSet n q count (pre ++ e :: post)) (more : count ≤ count')
    (isValid : valid e.id) (same : e'.id = e.id) (recent : e'.lastused ≤ count') :
    QueueSet n q count' (pre ++ e' :: post) := by
  apply r.replace more
  · rw [same]
    exact r.others
  · rw [same]
    exact r.placed e (by simp)
  · rw [same, isValid]
    exact nofun
  · exact recent

/-- The entries of a queue after `init`. -/
theorem fresh (n q count k : Nat) : QueueSet n q count (List.replicate k .new) := by
  have new : ∀ e ∈ List.replicate k CacheEntrySimple.new, e = .new := fun e mem =>
    List.eq_of_mem_replicate mem
  refine ⟨List.pairwise_replicate.mpr (.inr nofun), ?_, ?_, ?_⟩
  · intro e mem isValid
    rw [new e mem] at isValid
    cases isValid
  · intro e mem _
    rw [new e mem]
    exact ⟨rfl, rfl, rfl⟩
  · intro e mem
    rw [new e mem]
    exact Nat.zero_le count

/-- A flush changes no id and no time of use. -/
theorem flushed {es : List CacheEntrySimple} (r : QueueSet n q count es) :
    QueueSet n q count (es.map cleaned) := by
  have ids : ∀ e, (cleaned e).id = e.id := fun e => (cleaned_fields e).1
  refine ⟨?_, ?_, ?_, ?_⟩
  · rw [List.pairwise_map]
    simpa only [ids] using r.distinct
  all_goals
    intro e' there
    obtain ⟨e, mem, rfl⟩ := List.mem_map.mp there
  · rw [ids]
    exact r.placed e mem
  · rw [ids]
    intro unused
    rw [cleaned_of_not_flushes (by simp [flushes, unused])]
    exact r.unused e mem unused
  · rw [(cleaned_fields e).2.2.1]
    exact r.recent e mem

end QueueSet

/-! ### The locked section of `get` -/

section

variable {n q count j : Nat} {es : List CacheEntrySimple} {id : CacheObjectIdSimple}
  {type : GetType} {store store' : Store} {got : Got} {hashq : HashQueues}

/-- An access is counted, unless the count wraps. -/
theorem access_spec {i : Nat} (bounded : count < 2 ^ 64)
    (run : access type i es count = some hashq) :
    count + 1 < 2 ^ 64 ∧
      hashq = ⟨count + 1, some (es.set i (handed type (count + 1) (entryAt es i)))⟩ := by
  have small : count + 1 < 2 ^ 64 := by
    by_contra wraps
    have last : count + 1 = 2 ^ 64 := by omega
    simp [access, last] at run
  rw [Agrees.access_eq small, Option.some.injEq] at run
  exact ⟨small, run.symm⟩

/-- The last position that a scan has taken, or an earlier one. -/
theorem lruentry_middle {i : Nat} (found : lruentry es = some i) :
    ∃ pre e post, es = pre ++ e :: post ∧ i = pre.length ∧ e.busy = false := by
  obtain ⟨bound, idle⟩ := lruentry_cases found
  obtain ⟨pre, post, split, size⟩ := exists_middle bound
  exact ⟨pre, entryAt es i, post, split, size, idle⟩

/-- What the locked section of `get` leaves in a queue of entries `es`. -/
structure Attempt (n q count : Nat) (es : List CacheEntrySimple) (id : CacheObjectIdSimple)
    (type : GetType) (got : Got) (count' : Nat) (es' : List CacheEntrySimple) : Prop where
  set : QueueSet n q count' es'
  bounded : count' < 2 ^ 64
  length : es'.length = es.length
  busy : ∀ j, (entryAt es j).busy → (entryAt es' j).busy
  handed : ∀ i, got = .entry i → (entryAt es i).busy = false ∧
    (entryAt es' i).id = id ∧ (type = .getForWrite → (entryAt es' i).busy)
  refused : got = .noFree → ∀ e ∈ es, e.busy ∧ e.id ≠ id

theorem entryAt_replaced_ne {pre post : List CacheEntrySimple} {e e' : CacheEntrySimple}
    (other : j ≠ pre.length) : entryAt (pre ++ e' :: post) j = entryAt (pre ++ e :: post) j := by
  have split : pre ++ e' :: post = (pre ++ e :: post).set pre.length e' := by simp
  rw [split, entryAt, entryAt, List.getD_eq_getElem?_getD, List.getElem?_set_ne (Ne.symm other),
    List.getD_eq_getElem?_getD]

theorem entryAt_replaced {pre post : List CacheEntrySimple} {e e' : CacheEntrySimple}
    (keeps : e.busy → e'.busy) (busy : (entryAt (pre ++ e :: post) j).busy) :
    (entryAt (pre ++ e' :: post) j).busy := by
  by_cases here : j = pre.length
  · subst here
    rw [entryAt_middle] at busy ⊢
    exact keeps busy
  · rwa [entryAt_replaced_ne here]

/-- An entry that is not BUSY, or what was loaded into it, is handed out for its id. -/
theorem QueueSet.hand {pre post : List CacheEntrySimple} {e x : CacheEntrySimple}
    (r : QueueSet n q count (pre ++ e :: post)) (small : count + 1 < 2 ^ 64) (isValid : valid id)
    (here : index id n = q) (apart : ∀ d ∈ pre ++ post, d.id ≠ id) (idle : e.busy = false)
    (label : x.id = id) :
    Attempt n q count (pre ++ e :: post) id type (.entry pre.length) (count + 1)
      (pre ++ handed type (count + 1) x :: post) := by
  refine ⟨?_, small, by simp, ?_, ?_, nofun⟩
  · apply r.replace (Nat.le_succ count)
    · intro _
      rwa [handed, label]
    · intro _
      rwa [handed, label]
    · intro unused
      rw [handed, label, isValid] at unused
      cases unused
    · exact Nat.le_refl _
  · intro j busy
    exact entryAt_replaced (fun busy => absurd busy (by rw [idle]; exact Bool.false_ne_true)) busy
  · rintro _ ⟨⟩
    rw [entryAt_middle, entryAt_middle]
    exact ⟨idle, label, fun write => by simp [handed, write]⟩

theorem QueueSet.getLocked (r : QueueSet n q count es) (bounded : count < 2 ^ 64)
    (isValid : valid id) (here : index id n = q)
    (run : getLocked id type store ⟨count, some es⟩ = some (got, hashq, store')) :
    ∃ count' es', hashq = ⟨count', some es'⟩ ∧ Attempt n q count es id type got count' es' := by
  cases found : search id es with
  | some i =>
      obtain ⟨pre, e, post, rfl, rfl, rfl⟩ := search_some found
      simp only [SSACSimpleSharedArray.getLocked, found, entryAt_middle] at run
      by_cases busy : e.busy
      · rw [if_pos busy] at run
        cases run
        exact ⟨count, _, rfl, r, bounded, rfl, fun _ busy => busy, by simp, by simp⟩
      · rw [if_neg busy, Option.map_eq_some_iff] at run
        obtain ⟨hashq, accessed, same⟩ := run
        cases same
        obtain ⟨small, rfl⟩ := access_spec bounded accessed
        have attempt : Attempt n q count _ e.id type (.entry pre.length) _ _ :=
          r.hand small isValid here (r.others isValid) (Bool.not_eq_true _ ▸ busy) rfl
        exact ⟨count + 1, _, by simp, attempt⟩
  | none =>
      have absent := search_none found
      cases free : lruentry es with
      | none =>
          simp only [SSACSimpleSharedArray.getLocked, found, free] at run
          cases run
          have full : ∀ e ∈ es, e.busy ∧ e.id ≠ id := fun e mem =>
            ⟨lruentry_none_iff.mp free e mem, absent e mem⟩
          exact ⟨count, es, rfl, r, bounded, rfl, fun _ busy => busy, by simp, fun _ => full⟩
      | some i =>
          obtain ⟨pre, e, post, rfl, rfl, idle⟩ := lruentry_middle free
          simp only [SSACSimpleSharedArray.getLocked, found, free, entryAt_middle] at run
          obtain ⟨hashq, accessed, same⟩ := Option.map_eq_some_iff.mp run
          cases same
          obtain ⟨small, rfl⟩ := access_spec bounded accessed
          have apart : ∀ d ∈ pre ++ post, d.id ≠ id := fun d mem =>
            absent d (List.perm_middle.mem_iff.mpr (List.mem_cons_of_mem e mem))
          have loaded : (reload store id e).id = id := rfl
          have attempt : Attempt n q count _ id type (.entry pre.length) _ _ :=
            r.hand small isValid here apart idle loaded
          exact ⟨count + 1, _, by simp [reload, evict], attempt⟩

end

/-! ### The invariant of the cache -/

/-- What holds between two calls. -/
structure Inv (n a : Nat) (s : State) : Prop where
  queues : s.cache.numhashqs = n
  ways : s.cache.associativity = a
  sets : ∀ q es, (s.cache.hashqs q).entries = some es → QueueSet n q (s.cache.hashqs q).count es
  bounded : ∀ q, (s.cache.hashqs q).count < 2 ^ 64
  sized : s.cache.Sized
  held : ∀ q j, (q, j) ∈ s.held → (s.cache.slot q j).busy
  once : s.held.Nodup

section

variable {c : SSAC} {q i j : Nat} {es : List CacheEntrySimple}

@[simp] theorem slot_setQueue (c : SSAC) (i count : Nat) (es : List CacheEntrySimple) (j : Nat) :
    (c.setQueue i ⟨count, some es⟩).slot i j = entryAt es j := by
  simp [SSAC.slot, SSAC.setQueue]

theorem slot_setQueue_ne {p : Nat} {hashq : HashQueues} (other : p ≠ i) :
    (c.setQueue i hashq).slot p j = c.slot p j := by
  simp [SSAC.slot, SSAC.setQueue, other]

/-- A BUSY entry is in an initialised queue. -/
theorem middle_of_busy (busy : (c.slot q j).busy) : ∃ pre e post,
    (c.hashqs q).entries = some (pre ++ e :: post) ∧ j = pre.length ∧ c.slot q j = e := by
  cases entries : (c.hashqs q).entries with
  | none =>
      rw [SSAC.slot, entries] at busy
      cases busy
  | some es =>
      rw [slot_eq entries] at busy ⊢
      obtain bound | past := Nat.lt_or_ge j es.length
      · obtain ⟨pre, post, split, size⟩ := exists_middle bound
        exact ⟨pre, entryAt es j, post, congrArg some split, size, rfl⟩
      · rw [entryAt_of_le past] at busy
        cases busy

end

namespace Inv

variable {n a q j i : Nat} {s t : State} {id : CacheObjectIdSimple} {type : GetType}

/-- The rule for a call that changes one queue. -/
theorem update (inv : Inv n a s) {count : Nat} {es : List CacheEntrySimple} {store : Store}
    {held : List (Nat × Nat)} (set : QueueSet n i count es) (bounded : count < 2 ^ 64)
    (length : es.length = a)
    (holds : ∀ q j, (q, j) ∈ held → ((s.cache.setQueue i ⟨count, some es⟩).slot q j).busy)
    (once : held.Nodup) :
    Inv n a { cache := s.cache.setQueue i ⟨count, some es⟩, store, held } := by
  refine ⟨inv.queues, inv.ways, ?_, ?_, ?_, holds, once⟩
  · intro p es' entries
    by_cases here : p = i
    · subst here
      simp only [SSAC.setQueue, Function.update_self, Option.some.injEq] at entries ⊢
      exact entries ▸ set
    · simp only [SSAC.setQueue, Function.update_of_ne here] at entries ⊢
      exact inv.sets p es' entries
  · intro p
    by_cases here : p = i
    · simpa [SSAC.setQueue, here] using bounded
    · simpa [SSAC.setQueue, here] using inv.bounded p
  · intro p es' entries
    by_cases here : p = i
    · simp only [SSAC.setQueue, here, Function.update_self, Option.some.injEq] at entries
      rw [← entries, length]
      exact inv.ways.symm
    · simp only [SSAC.setQueue, Function.update_of_ne here] at entries
      exact inv.sized p es' entries

/-- The queue in which `get` looks. -/
theorem ensure (inv : Inv n a s) {hashq : HashQueues}
    (run : ensure (s.cache.hashqs i) s.cache.associativity = some hashq) :
    ∃ es, hashq = ⟨(s.cache.hashqs i).count, some es⟩ ∧
      QueueSet n i (s.cache.hashqs i).count es ∧ es.length = a ∧
      (∀ j, entryAt es j = s.cache.slot i j) ∧
      ((s.cache.hashqs i).entries = none ∨ (s.cache.hashqs i).entries = some es) := by
  cases entries : (s.cache.hashqs i).entries with
  | none =>
      simp only [SSACSimpleSharedArray.ensure, entries, Option.isNone_none, if_true,
        HashQueues.init, Option.some.injEq] at run
      refine ⟨_, run.symm, .fresh n i _ _, by simp [inv.ways], ?_, .inl rfl⟩
      intro j
      have new : ∀ k, entryAt (List.replicate k .new) j = .new := by
        intro k
        rw [entryAt, List.getD_eq_getElem?_getD, List.getElem?_replicate]
        split <;> rfl
      rw [new, SSAC.slot, entries]
      rfl
  | some es =>
      simp only [SSACSimpleSharedArray.ensure, entries, Option.isNone_some, Bool.false_eq_true,
        if_false, Option.some.injEq] at run
      refine ⟨es, ?_, inv.sets i es entries, ?_, fun j => (slot_eq entries j).symm, .inr rfl⟩
      · rw [← run, ← entries]
      · rw [inv.sized i es entries, inv.ways]

theorem get (inv : Inv n a s) (moved : s.step (.get id type) = some t) : Inv n a t := by
  obtain ⟨⟨got, cache, store⟩, run, rfl⟩ := Option.map_eq_some_iff.mp moved
  obtain ⟨isValid, run⟩ := Option.ite_none_right_eq_some.mp run
  obtain ⟨⟨got, hashq, store'⟩, run, same⟩ := Option.map_eq_some_iff.mp run
  cases same
  obtain ⟨hashq₀, ready, run⟩ := Option.bind_eq_some_iff.mp run
  obtain ⟨es, rfl, set, length, slots, _⟩ := inv.ensure ready
  have home : index id n = index id s.cache.numhashqs := by rw [inv.queues]
  obtain ⟨count', es', rfl, attempt⟩ :=
    set.getLocked (inv.bounded _) isValid home run
  have size : es'.length = a := attempt.length.trans length
  -- The entries that were held before are still BUSY.
  have holds : ∀ q j, (q, j) ∈ s.held →
      ((s.cache.setQueue (index id s.cache.numhashqs) ⟨count', some es'⟩).slot q j).busy := by
    intro q j mem
    have busy := inv.held q j mem
    by_cases here : q = index id s.cache.numhashqs
    · subst here
      rw [slot_setQueue]
      exact attempt.busy j (by rwa [slots])
    · rwa [slot_setQueue_ne here]
  cases got with
  | entry i =>
      obtain ⟨idle, _, written⟩ := attempt.handed i rfl
      have free : (index id s.cache.numhashqs, i) ∉ s.held := by
        intro mem
        have busy := inv.held _ _ mem
        rw [← slots, idle] at busy
        cases busy
      cases type with
      | getForRead => exact inv.update attempt.set attempt.bounded size holds inv.once
      | getForWrite =>
          refine inv.update attempt.set attempt.bounded size ?_
            (List.nodup_cons.mpr ⟨free, inv.once⟩)
          intro q j mem
          obtain new | old := List.mem_cons.mp mem
          · cases new
            exact (slot_setQueue s.cache _ count' es' i).symm ▸ written rfl
          · exact holds q j old
  | noFree => exact inv.update attempt.set attempt.bounded size holds inv.once
  | again => exact inv.update attempt.set attempt.bounded size holds inv.once

/-- The holder of an entry changes it, and keeps its id. -/
theorem modify (inv : Inv n a s) (mem : (q, j) ∈ s.held) {held : List (Nat × Nat)}
    {cache : SSAC} {f : CacheEntrySimple → CacheEntrySimple}
    (run : modifyEntry s.cache q j f = some cache) (label : ∀ e, (f e).id = e.id)
    (recent : ∀ e ∈ (s.cache.hashqs q).entries.getD [],
      (f e).lastused ≤ (s.cache.hashqs q).count)
    (holds : ∀ p k, (p, k) ∈ held →
      (p, k) ∈ s.held ∧ ((p, k) = (q, j) → ∀ e, e.busy → (f e).busy))
    (once : held.Nodup) : Inv n a { s with cache, held } := by
  obtain ⟨pre, e, post, entries, rfl, here⟩ := middle_of_busy (inv.held q _ mem)
  have busy : e.busy := here ▸ inv.held q _ mem
  have set := inv.sets q _ entries
  rw [modifyEntry_middle entries, Option.some.injEq] at run
  subst run
  refine inv.update ?_ (inv.bounded q) ?_ ?_ once
  · exact set.relabel (Nat.le_refl _) (set.valid_of_busy busy) (label e)
      (recent e (by simp [entries]))
  · rw [← inv.ways, ← inv.sized q _ entries]
    simp
  · intro p k mem'
    obtain ⟨old, keeps⟩ := holds p k mem'
    have before := inv.held p k old
    by_cases same : p = q
    · subst same
      rw [slot_setQueue]
      rw [slot_eq entries] at before
      by_cases place : k = pre.length
      · subst place
        rw [entryAt_middle]
        exact keeps rfl e busy
      · rwa [entryAt_replaced_ne place]
    · rwa [slot_setQueue_ne same]

theorem dirty (inv : Inv n a s) {v : Nat} (moved : s.step (.dirty q j v) = some t) :
    Inv n a t := by
  obtain ⟨mem, moved⟩ := Option.ite_none_right_eq_some.mp moved
  obtain ⟨cache, run, rfl⟩ := Option.map_eq_some_iff.mp moved
  refine inv.modify mem run (fun _ => rfl) ?_ (fun p k mem => ⟨mem, fun _ _ busy => busy⟩) inv.once
  intro e there
  cases entries : (s.cache.hashqs q).entries with
  | none => simp [entries] at there
  | some es => exact (inv.sets q es entries).recent e (by simpa [entries] using there)

theorem putback (inv : Inv n a s) {flag : PutFlag} (moved : s.step (.putback q j flag) = some t) :
    Inv n a t := by
  obtain ⟨mem, moved⟩ := Option.ite_none_right_eq_some.mp moved
  obtain ⟨cache, run, rfl⟩ := Option.map_eq_some_iff.mp moved
  obtain ⟨es, entries, run⟩ := Option.bind_eq_some_iff.mp run
  obtain ⟨_, run⟩ := Option.ite_none_right_eq_some.mp run
  -- The queue of the entry's id is the one that the entry is in.
  have home : index (entryAt es j).id s.cache.numhashqs = q := by
    obtain ⟨pre, e, post, entries', rfl, here⟩ := middle_of_busy (inv.held q j mem)
    have busy : e.busy := here ▸ inv.held q _ mem
    rw [entries, Option.some.injEq] at entries'
    subst entries'
    have set := inv.sets q _ entries
    rw [entryAt_middle, inv.queues]
    exact set.placed e (by simp) (set.valid_of_busy busy)
  rw [home] at run
  refine inv.modify mem run (fun _ => rfl) ?_ ?_ (inv.once.erase _)
  · intro e _
    by_cases keep : flag = .keep <;> simp [keep]
  · intro p k mem'
    obtain ⟨other, old⟩ := (List.Nodup.mem_erase_iff inv.once).mp mem'
    exact ⟨old, fun same => absurd same other⟩

theorem flush (inv : Inv n a s) (moved : s.step .flush = some t) : Inv n a t := by
  simp only [State.step, flush_eq, Option.map_some, Option.some.injEq] at moved
  subst moved
  have counts : ∀ q, ((s.cache.flushedTo s.cache.numhashqs).hashqs q).count =
      (s.cache.hashqs q).count := fun q => flushedTo_count s.cache _ q
  refine ⟨inv.queues, inv.ways, ?_, ?_, ?_, ?_, inv.once⟩
  · intro q es entries
    simp only [counts]
    obtain ⟨es', old, rfl | rfl⟩ := flushedTo_entries entries
    · exact inv.sets q es old
    · exact (inv.sets q es' old).flushed
  · intro q
    simp only [counts]
    exact inv.bounded q
  · intro q es entries
    obtain ⟨es', old, rfl | rfl⟩ := flushedTo_entries entries
    · exact inv.sized q es old
    · rw [List.length_map]
      exact inv.sized q es' old
  · intro q j mem
    have busy := inv.held q j mem
    simp only [slot_flushedTo]
    split
    · rwa [(cleaned_fields _).2.2.2]
    · exact busy

theorem step (inv : Inv n a s) {call : Call} (moved : s.step call = some t) : Inv n a t := by
  cases call with
  | get id type => exact inv.get moved
  | dirty q j v => exact inv.dirty moved
  | putback q j flag => exact inv.putback moved
  | flush => exact inv.flush moved

end Inv

theorem inv_reach {n a : Nat} {s : State} (run : (machine n a).Reach s) : Inv n a s := by
  apply Machine.ReachVia.invariant _ (fun _ _ _ _ inv _ moved => Inv.step inv moved) run
  rintro _ ⟨store, rfl⟩
  refine ⟨rfl, rfl, nofun, fun _ => Nat.two_pow_pos 64, nofun, nofun, List.nodup_nil⟩

/-- The cache set invariant, in every state that a sequence of calls reaches. -/
theorem sets_reach {n a : Nat} {s : State} (run : (machine n a).Reach s) (q : Nat)
    (es : List CacheEntrySimple) (entries : (s.cache.hashqs q).entries = some es) :
    QueueSet n q (s.cache.hashqs q).count es :=
  (inv_reach run).sets q es entries

/-- A new cache of `n` queues with `a` entries each, over a store of the ids. -/
def fresh (n a : Nat) : State :=
  { cache := create n a, store := fun id => id.toNat, held := [] }

/-- A miss, an update that is discarded, a second miss and a flush in one queue. -/
theorem sets_reach_sample : ∃ s, (machine 2 2).Reach s ∧
    s.cache.hashqs 1 = ⟨2, some [⟨5, false, false, 0, 42⟩, ⟨7, true, false, 2, 7⟩]⟩ ∧
    QueueSet 2 1 2 [⟨5, false, false, 0, 42⟩, ⟨7, true, false, 2, 7⟩] := by
  have ran : ((machine 2 2).exec (fresh 2 2) [.get 5 .getForWrite, .dirty 1 0 42,
      .get 7 .getForWrite, .putback 1 0 .discard, .flush]).map (fun s => s.cache.hashqs 1) =
      some ⟨2, some [⟨5, false, false, 0, 42⟩, ⟨7, true, false, 2, 7⟩]⟩ := by decide +kernel
  obtain ⟨s, run, queue⟩ := Option.map_eq_some_iff.mp ran
  have reach : (machine 2 2).Reach s := Machine.reachVia_of_execVia ⟨_, rfl⟩ run
  have set := sets_reach reach 1 _ (congrArg HashQueues.entries queue)
  rw [queue] at set
  exact ⟨s, reach, queue, set⟩

end EBBLib.SSACSimpleSharedArray.Calls
