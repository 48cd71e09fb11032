import EBBLib.SSAC.Transparent

/-!
# Entries by their positions

Clients keep pointers to entries between calls. Here an entry is found by its queue and
its position there, and each operation of the cache is described by the one entry that
it replaces.
-/

namespace EBBLib.SSACSimpleSharedArray

open CacheObjectIdSimple HashQueues

/-- The entry at a position of a queue. -/
def SSAC.slot (c : SSAC) (q j : Nat) : CacheEntrySimple :=
  entryAt ((c.hashqs q).entries.getD []) j

/-- All queues have been initialised. -/
def SSAC.Initialised (c : SSAC) : Prop := ∀ q, (c.hashqs q).entries.isSome

/-- The cache `d` is `c` with another entry at one position. -/
structure Replaces (c d : SSAC) (q j : Nat) (e : CacheEntrySimple) : Prop where
  queues : d.numhashqs = c.numhashqs
  initialised : d.Initialised
  here : d.slot q j = e
  others : ∀ p k, (p, k) ≠ (q, j) → d.slot p k = c.slot p k

section

variable {c d : SSAC} {store store' : Store} {q i j : Nat} {es : List CacheEntrySimple}
  {id : CacheObjectIdSimple} {type : GetType} {e : CacheEntrySimple}

/-- Past the end of a queue there is nothing but the constructor's entry. -/
theorem entryAt_of_le (past : es.length ≤ j) : entryAt es j = .new := by
  rw [entryAt, List.getD_eq_getElem?_getD, List.getElem?_eq_none past, Option.getD_none]

theorem entryAt_mem (bound : j < es.length) : entryAt es j ∈ es := by
  rw [entryAt_eq bound]
  exact List.getElem_mem bound

theorem not_valid_new : valid CacheEntrySimple.new.id = false := rfl

/-- An id that `search` does not find is at no position. -/
theorem entryAt_ne_of_search (isValid : valid id) (missing : HashQueues.search id es = none)
    (j : Nat) : (entryAt es j).id ≠ id := by
  obtain bound | past := Nat.lt_or_ge j es.length
  · exact search_none missing _ (entryAt_mem bound)
  · rw [entryAt_of_le past]
    rintro rfl
    rw [not_valid_new] at isValid
    cases isValid

theorem replaces_setQueue (init : c.Initialised) (entries : (c.hashqs q).entries = some es)
    (bound : j < es.length) (count : Nat) :
    Replaces c (c.setQueue q ⟨count, some (es.set j e)⟩) q j e := by
  constructor
  · rfl
  · intro p
    by_cases same : p = q
    · simp [SSAC.setQueue, same]
    · simpa [SSAC.setQueue, same] using init p
  · simp [SSAC.slot, SSAC.setQueue, entryAt, bound]
  · intro p k other
    by_cases same : p = q
    · subst same
      have apart : j ≠ k := fun clash => other (clash ▸ rfl)
      simp [SSAC.slot, SSAC.setQueue, entryAt, entries, apart]
    · simp [SSAC.slot, SSAC.setQueue, same]

/-- What the loop of `lruentry` finds. -/
theorem lruFrom_cases {best : Option (Nat × Nat)} {k : Nat} (found : lruFrom i best es = some k) :
    (∃ b, best = some b ∧ k = b.1) ∨ ∃ d, k = i + d ∧
    d < es.length ∧ (entryAt es d).busy = false := by
  induction es generalizing i best with
  | nil =>
      obtain ⟨b, some, rfl⟩ := Option.map_eq_some_iff.mp found
      exact .inl ⟨b, some, rfl⟩
  | cons e es ih =>
      -- A position in the rest of the queue.
      have later : ∀ {best}, lruFrom (i + 1) best es = some k →
          (∃ b, best = some b ∧ k = b.1) ∨
            ∃ d, k = i + d ∧ d < (e :: es).length ∧ (entryAt (e :: es) d).busy = false := by
        intro best found
        obtain here | ⟨d, rfl, bound, idle⟩ := ih found
        · exact .inl here
        · exact .inr ⟨d + 1, by omega, Nat.succ_lt_succ bound, idle⟩
      have first : e.busy = false → k = i →
          ∃ d, k = i + d ∧ d < (e :: es).length ∧ (entryAt (e :: es) d).busy = false :=
        fun idle same => ⟨0, same, Nat.succ_pos _, idle⟩
      -- The entry becomes the best one so far.
      have taken : e.busy = false → ∀ l, lruFrom (i + 1) (some (i, l)) es = some k →
          ∃ d, k = i + d ∧ d < (e :: es).length ∧ (entryAt (e :: es) d).busy = false := by
        intro idle l found
        obtain ⟨b, some, same⟩ | there := later found
        · cases some
          exact first idle same
        · exact there
      by_cases busy : e.busy
      · cases best <;> exact later (by simpa [lruFrom, busy] using found)
      · have idle : e.busy = false := Bool.not_eq_true _ ▸ busy
        cases best with
        | none =>
            simp only [lruFrom, idle, Bool.false_eq_true, if_false] at found
            split at found
            · exact .inr (first idle (Option.some.inj found).symm)
            · exact .inr (taken idle _ found)
        | some b =>
            simp only [lruFrom, idle, Bool.false_eq_true, if_false] at found
            split at found
            · exact .inr (taken idle _ found)
            · exact later found

/-- `lruentry` never takes a busy entry. -/
theorem lruentry_cases {k : Nat} (found : lruentry es = some k) :
    k < es.length ∧ (entryAt es k).busy = false := by
  obtain ⟨b, none, _⟩ | ⟨d, rfl, bound, idle⟩ := lruFrom_cases found
  · cases none
  · rw [Nat.zero_add]
    exact ⟨bound, idle⟩

theorem lruFrom_none_iff {best : Option (Nat × Nat)} :
    lruFrom i best es = none ↔ best = none ∧ ∀ e ∈ es, e.busy := by
  induction es generalizing i best with
  | nil => simp [lruFrom]
  | cons e es ih =>
      by_cases busy : e.busy
      · cases best <;> simp [lruFrom, busy, ih]
      · -- The entry or a better one is taken.
        have never : ∀ b, lruFrom (i + 1) (some b) es ≠ none := fun b none =>
          Option.some_ne_none b (ih.mp none).1
        cases best with
        | none => by_cases unused : valid e.id <;> simp [lruFrom, busy, unused, never]
        | some b => by_cases older : e.lastused < b.2 <;> simp [lruFrom, busy, older, never]

/-- There is no victim when all entries are BUSY, and only then. -/
theorem lruentry_none_iff : lruentry es = none ↔ ∀ e ∈ es, e.busy := by
  rw [lruentry, lruFrom_none_iff]
  simp

theorem slot_eq (entries : (c.hashqs q).entries = some es) (j : Nat) :
    c.slot q j = entryAt es j := by
  rw [SSAC.slot, entries, Option.getD_some]

/-- The entry that `get` hands out on a hit and on a miss. -/
def handed (type : GetType) (lastused : Nat) (e : CacheEntrySimple) : CacheEntrySimple :=
  { e with lastused, busy := e.busy || type = .getForWrite }

/-- What a miss leaves in the store. -/
def evict (store : Store) (e : CacheEntrySimple) : Store :=
  if e.dirty then Function.update store e.id e.data else store

/-- What a miss makes of an entry. -/
def reload (store : Store) (id : CacheObjectIdSimple) (e : CacheEntrySimple) : CacheEntrySimple :=
  { e with dirty := false, id, data := evict store e id }

/-- What the locked section of `get` does to the cache and the store. -/
inductive GetSpec (c : SSAC) (store : Store) (id : CacheObjectIdSimple) (type : GetType) (q : Nat) :
    Got → SSAC → Store → Prop
  | again : GetSpec c store id type q .again c store
  | noFree (missing : ∀ j, (c.slot q j).id ≠ id) : GetSpec c store id type q .noFree c store
  | hit {d : SSAC} {i lastused : Nat} (found : (c.slot q i).id = id)
      (idle : (c.slot q i).busy = false)
      (replaces : Replaces c d q i (handed type lastused (c.slot q i))) :
      GetSpec c store id type q (.entry i) d store
  | miss {d : SSAC} {i lastused : Nat} (missing : ∀ j, (c.slot q j).id ≠ id)
      (lru : lruentry ((c.hashqs q).entries.getD []) = some i) (idle : (c.slot q i).busy = false)
      (replaces : Replaces c d q i (handed type lastused (reload store id (c.slot q i)))) :
      GetSpec c store id type q (.entry i) d (evict store (c.slot q i))

theorem access_cases {count : Nat} {hashq : HashQueues}
    (run : access type i es count = some hashq) :
    ∃ lastused, hashq = ⟨lastused, some (es.set i (handed type lastused (entryAt es i)))⟩ := by
  rw [access] at run
  obtain ⟨_, run⟩ := Option.ite_none_left_eq_some.mp run
  exact ⟨_, (Option.some.inj run).symm⟩

theorem get_spec {got : Got} (init : c.Initialised)
    (run : get c store id type = some (got, d, store')) :
    GetSpec c store id type (index id c.numhashqs) got d store' := by
  obtain ⟨isValid, run⟩ := Option.ite_none_right_eq_some.mp run
  obtain ⟨⟨got, hashq, store'⟩, run, same⟩ := Option.map_eq_some_iff.mp run
  cases same
  obtain ⟨es, entries⟩ := Option.isSome_iff_exists.mp (init (index id c.numhashqs))
  have slots := slot_eq entries
  have ready : ensure (c.hashqs (index id c.numhashqs)) c.associativity =
      some (c.hashqs (index id c.numhashqs)) := by simp [ensure, entries]
  rw [ready, Option.bind_some, SSACSimpleSharedArray.getLocked, entries] at run
  have unchanged : c.setQueue (index id c.numhashqs) (c.hashqs (index id c.numhashqs)) = c := by
    simp [SSAC.setQueue]
  simp only at run
  cases found : HashQueues.search id es with
  | some i =>
      simp only [found] at run
      obtain ⟨pre, e, post, rfl, rfl, same⟩ := search_some found
      by_cases busy : (entryAt (pre ++ e :: post) pre.length).busy
      · rw [if_pos busy] at run
        cases run
        rw [unchanged]
        exact .again
      · rw [if_neg busy, Option.map_eq_some_iff] at run
        obtain ⟨hashq, accessed, same'⟩ := run
        cases same'
        obtain ⟨lastused, rfl⟩ := access_cases accessed
        rw [← slots]
        apply GetSpec.hit
        · rw [slots, entryAt_middle, same]
        · rw [slots]
          exact Bool.not_eq_true _ ▸ busy
        · exact replaces_setQueue init entries (by simp) _
  | none =>
      simp only [found] at run
      have missing : ∀ j, (c.slot (index id c.numhashqs) j).id ≠ id := by
        intro j
        rw [slots]
        exact entryAt_ne_of_search isValid found j
      cases free : HashQueues.lruentry es with
      | none =>
          simp only [free] at run
          cases run
          rw [unchanged]
          exact .noFree missing
      | some i =>
          simp only [free] at run
          obtain ⟨hashq, accessed, same'⟩ := Option.map_eq_some_iff.mp run
          cases same'
          obtain ⟨lastused, rfl⟩ := access_cases accessed
          obtain ⟨bound, idle⟩ := lruentry_cases free
          rw [← slots] at idle
          have replaced := replaces_setQueue (e := handed type lastused
            (reload store id (c.slot (index id c.numhashqs) i))) init entries bound lastused
          have there : ∀ e, entryAt (es.set i e) i = e := fun e => by simp [entryAt, bound]
          rw [List.set_set, there, ← slots]
          exact .miss missing (by rw [entries]; exact free) idle replaced

/-- Changing an entry, which is not past the end of its queue. -/
theorem modifyEntry_spec {f : CacheEntrySimple → CacheEntrySimple} (init : c.Initialised)
    (inside : c.slot q j ≠ .new) (run : modifyEntry c q j f = some d) :
    Replaces c d q j (f (c.slot q j)) := by
  obtain ⟨es, entries, rfl⟩ := Option.map_eq_some_iff.mp run
  have slots := slot_eq entries
  rw [slots] at inside ⊢
  apply replaces_setQueue init entries
  by_contra past
  exact inside (entryAt_of_le (Nat.le_of_not_lt past))

theorem putback_spec {flag : PutFlag} (init : c.Initialised) (inside : c.slot q j ≠ .new)
    (run : putback c q j flag = some d) :
    ∃ lastused, Replaces c d q j { c.slot q j with lastused, busy := false } := by
  obtain ⟨es, entries, run⟩ := Option.bind_eq_some_iff.mp run
  obtain ⟨_, run⟩ := Option.ite_none_right_eq_some.mp run
  exact ⟨_, modifyEntry_spec init inside run⟩

/-- The entry that the inner loop of `flush` stops at. -/
theorem flushes_of_findIdx? (entries : (c.hashqs q).entries = some es)
    (found : es.findIdx? flushes = some j) : flushes (c.slot q j) := by
  obtain ⟨bound, flush, _⟩ := List.findIdx?_eq_some_iff_getElem.mp found
  rwa [slot_eq entries, entryAt_eq bound]

end

end EBBLib.SSACSimpleSharedArray
