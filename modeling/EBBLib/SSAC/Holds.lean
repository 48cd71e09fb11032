import EBBLib.SSAC.Clients

/-!
# Holds are exclusive

A writer holds an entry from `get` to `putback`, and `flush` holds the one that it saves.
BUSY keeps all others away from a held entry, and no value that was put back dirty is
lost, as long as no writer goes on with an entry that it was not given.
-/

namespace EBBLib.SSACSimpleSharedArray.Clients

open CacheObjectIdSimple

/-- The id that a client asks for or works with. -/
def Pc.id? : Pc → Option CacheObjectIdSimple
  | getting id _ => some id
  | refused id _ => some id
  | writing id => some id
  | reading id => some id
  | _ => none

/-- A client that is there holds no entry. -/
def Pc.Free : Pc → Prop
  | writing _ => False
  | saving .. => False
  | clearing .. => False
  | _ => True

section

variable {s t : State} {c d : Nat} {a : Action} {k : Client} {q j v : Nat}
  {id : CacheObjectIdSimple} {type : GetType} {cache : SSAC}

/-- What a step does, with the entry that it replaces. -/
inductive Effect (s : State) : Action → State → Prop
  | quiet {a : Action} {c : Nat} {k : Client} (before : (s.client c).pc.Free) (after : k.pc.Free)
      (asks : ∀ id, k.pc.id? = some id → valid id) :
      Effect s a { s with client := Function.update s.client c k }
  | hit {c q i lastused : Nat} {id : CacheObjectIdSimple} {type : GetType} {cache : SSAC}
      (before : (s.client c).pc.Free) (asks : valid id)
      (found : (s.cache.slot q i).id = id) (idle : (s.cache.slot q i).busy = false)
      (replaces : Replaces s.cache cache q i (handed type lastused (s.cache.slot q i))) :
      Effect s (.attempt c) ({ s with cache }.hand c id type (q, i))
  | miss {c q i lastused : Nat} {id : CacheObjectIdSimple} {type : GetType} {cache : SSAC}
      (before : (s.client c).pc.Free) (asks : valid id)
      (home : index id s.cache.numhashqs = q) (missing : ∀ j, (s.cache.slot q j).id ≠ id)
      (reused : reuses q i s (.attempt c)) (idle : (s.cache.slot q i).busy = false)
      (replaces : Replaces s.cache cache q i
        (handed type lastused (reload s.store id (s.cache.slot q i)))) :
      Effect s (.attempt c) ({ s with
        cache
        store := evict s.store (s.cache.slot q i)
        log := (id, evict s.store (s.cache.slot q i) id) :: s.log }.hand c id type (q, i))
  | assign {c q j v : Nat} {id : CacheObjectIdSimple} {cache : SSAC}
      (has : s.client c = ⟨.writing id, some (q, j)⟩)
      (replaces : Replaces s.cache cache q j { s.cache.slot q j with data := v }) :
      Effect s (.assign c v)
        { s with cache, latest := Function.update s.latest id none, log := (id, v) :: s.log }
  | dirty {c q j : Nat} {id : CacheObjectIdSimple} {cache : SSAC}
      (has : s.client c = ⟨.writing id, some (q, j)⟩)
      (replaces : Replaces s.cache cache q j { s.cache.slot q j with dirty := true }) :
      Effect s (.dirty c) { s with cache }
  | putback {c q j lastused : Nat} {id : CacheObjectIdSimple} {flag : PutFlag} {cache : SSAC}
      (has : s.client c = ⟨.writing id, some (q, j)⟩)
      (replaces : Replaces s.cache cache q j
        { s.cache.slot q j with lastused, busy := false }) :
      Effect s (.putback c flag) ({ s with
        cache
        latest := if (s.cache.slot q j).dirty then
            Function.update s.latest id (some (s.cache.slot q j).data)
          else s.latest }.goto c .idle)
  | hold {c q j : Nat} {cache : SSAC} (at_ : (s.client c).pc = .flushing q)
      (flush : flushes (s.cache.slot q j))
      (replaces : Replaces s.cache cache q j { s.cache.slot q j with busy := true }) :
      Effect s (.scan c) ({ s with cache }.goto c (.saving q j))
  | save {c q j : Nat} (at_ : (s.client c).pc = .saving q j) :
      Effect s (.save c) ({ s with
        store := Function.update s.store (s.cache.slot q j).id (s.cache.slot q j).data }.goto c
          (.clearing q j))
  | clear {c q j : Nat} {cache : SSAC} (at_ : (s.client c).pc = .clearing q j)
      (replaces : Replaces s.cache cache q j
        { s.cache.slot q j with dirty := false, busy := false }) :
      Effect s (.clear c) ({ s with cache }.goto c (.flushing q))

/-! ### The invariant -/

/-- Who holds entries, and which ids these have. -/
structure Held (s : State) : Prop where
  initialised : s.cache.Initialised
  asks : ∀ c id, (s.client c).pc.id? = some id → valid id
  one : ∀ c d q j, (s.client c).Holds q j → (s.client d).Holds q j → c = d
  busy : ∀ c q j, (s.client c).Holds q j → (s.cache.slot q j).busy
  held : ∀ c q j, (s.client c).Holds q j → valid (s.cache.slot q j).id
  labelled : ∀ c id q j, s.client c = ⟨.writing id, some (q, j)⟩ → (s.cache.slot q j).id = id
  placed : ∀ q j, valid (s.cache.slot q j).id →
    index (s.cache.slot q j).id s.cache.numhashqs = q
  unique : ∀ q j p l, valid (s.cache.slot q j).id →
    (s.cache.slot q j).id = (s.cache.slot p l).id → (q, j) = (p, l)

/-- Where the values are. -/
structure Kept (s : State) : Prop where
  saved : ∀ c q j, (s.client c).pc = .clearing q j →
    s.store (s.cache.slot q j).id = (s.cache.slot q j).data
  current : ∀ id v, s.latest id = some v → valid id ∧
    ∀ q j, (s.cache.slot q j).id = id → (s.cache.slot q j).data = v
  somewhere : ∀ id v, s.latest id = some v → s.store id = v ∨
    ∃ q j, (s.cache.slot q j).id = id ∧ (s.cache.slot q j).dirty
  logged : ∀ q j, valid (s.cache.slot q j).id →
    ((s.cache.slot q j).id, (s.cache.slot q j).data) ∈ s.log

theorem Client.Holds.writing (has : s.client c = ⟨.writing id, some (q, j)⟩) :
    (s.client c).Holds q j := by
  rw [has]
  exact .inl ⟨⟨id, rfl⟩, rfl⟩

/-- A client holds one entry at most. -/
theorem Client.Holds.unique {p l : Nat} (holds : k.Holds q j) (holds' : k.Holds p l) :
    (q, j) = (p, l) := by
  obtain ⟨⟨_, at_⟩, has⟩ | at_ | at_ := holds <;> obtain ⟨⟨_, at'⟩, has'⟩ | at' | at' := holds' <;>
    simp_all

theorem Pc.Free.not_holds (free : k.pc.Free) (q j : Nat) : ¬ k.Holds q j := by
  rintro (⟨⟨id, at_⟩, _⟩ | at_ | at_) <;> rw [at_] at free <;> exact free

theorem Pc.Free.ne_writing {pc : Pc} (free : pc.Free) (id : CacheObjectIdSimple) :
    pc ≠ .writing id := by
  rintro rfl
  exact free

theorem ne_new_of_busy {e : CacheEntrySimple} (busy : e.busy) : e ≠ .new := by
  rintro rfl
  cases busy

/-! ### Each step has one of the effects -/

theorem missing_iff (init : s.cache.Initialised) (isValid : valid id) :
    s.missing id ↔ ∀ j, (s.cache.slot (index id s.cache.numhashqs) j).id ≠ id := by
  obtain ⟨es, entries⟩ := Option.isSome_iff_exists.mp (init (index id s.cache.numhashqs))
  simp only [State.missing, entries, Option.getD_some, Option.isNone_iff_eq_none]
  constructor
  · intro none j
    rw [slot_eq entries]
    exact entryAt_ne_of_search isValid none j
  · intro missing
    rw [Option.eq_none_iff_forall_ne_some]
    intro i found
    obtain ⟨pre, e, post, rfl, rfl, same⟩ := search_some found
    apply missing pre.length
    rw [slot_eq entries, entryAt_middle, same]

theorem attempt_effect (held : Held s) (moved : s.step (.attempt c) = some t) :
    Effect s (.attempt c) t := by
  cases at_ : (s.client c).pc with
  | getting id type =>
      simp only [State.step, at_] at moved
      obtain ⟨⟨got, cache, store⟩, run, rfl⟩ := Option.map_eq_some_iff.mp moved
      have asks : valid id := held.asks c id (by rw [at_]; rfl)
      have before : (s.client c).pc.Free := at_ ▸ trivial
      cases get_spec held.initialised run with
      | again =>
          have same :
              Effect s (.attempt c)
                { s with client := Function.update s.client c (s.client c) } := by
            apply Effect.quiet before before
            intro id' some
            exact held.asks c id' some
          rwa [Function.update_eq_self] at same
      | noFree =>
          refine Effect.quiet before trivial ?_
          rintro _ ⟨⟩
          exact asks
      | hit found idle replaces =>
          have hit : s.missing id = false := by
            rw [← Bool.not_eq_true, missing_iff held.initialised asks]
            exact fun missing => missing _ found
          simp only [hit, Bool.false_eq_true, if_false, replaces.queues]
          exact .hit before asks found idle replaces
      | miss missing lru idle replaces =>
          have absent : s.missing id := (missing_iff held.initialised asks).mpr missing
          simp only [absent, if_true, replaces.queues]
          refine .miss before asks rfl missing ?_ idle replaces
          simp [reuses, at_, absent, lru]
  | idle | refused | writing | reading | flushing | saving | clearing =>
      simp only [State.step, at_] at moved
      cases moved

/-- A step that changes only the program counter of a client that holds nothing. -/
theorem quiet_goto {pc : Pc} (before : (s.client c).pc.Free) (after : pc.Free)
    (asks : ∀ id, pc.id? = some id → valid id) : Effect s a (s.goto c pc) :=
  .quiet before after asks

theorem scan_effect (held : Held s) (moved : s.step (.scan c) = some t) : Effect s (.scan c) t := by
  cases at_ : (s.client c).pc with
  | flushing q =>
      have before : (s.client c).pc.Free := at_ ▸ trivial
      simp only [State.step, at_] at moved
      by_cases more : q < s.cache.numhashqs
      · rw [if_pos more] at moved
        obtain ⟨es, entries⟩ := Option.isSome_iff_exists.mp (held.initialised q)
        simp only [entries] at moved
        cases found : es.findIdx? flushes with
        | none =>
            simp only [found, Option.some.injEq] at moved
            subst moved
            exact quiet_goto before trivial (by simp [Pc.id?])
        | some j =>
            simp only [found] at moved
            obtain ⟨cache, run, rfl⟩ := Option.map_eq_some_iff.mp moved
            have flush := flushes_of_findIdx? entries found
            refine .hold at_ flush (modifyEntry_spec held.initialised ?_ run)
            intro new
            rw [new] at flush
            exact absurd flush (by decide)
      · rw [if_neg more] at moved
        cases moved
        exact quiet_goto before trivial (by simp [Pc.id?])
  | idle | getting | refused | writing | reading | saving | clearing =>
      simp only [State.step, at_] at moved
      cases moved

/-- The steps of a client that holds an entry. -/
theorem holder_effect (held : Held s) (moved : s.step a = some t)
    (own : (∃ v, a = .assign c v) ∨ a = .dirty c ∨ (∃ flag, a = .putback c flag) ∨ a = .save c ∨
      a = .clear c) : Effect s a t := by
  have inside : ∀ q j, (s.client c).Holds q j → s.cache.slot q j ≠ .new := fun q j holds =>
    ne_new_of_busy (held.busy c q j holds)
  obtain ⟨v, rfl⟩ | rfl | ⟨flag, rfl⟩ | rfl | rfl := own
  · simp only [State.step] at moved
    split at moved
    · rename_i id q j has
      obtain ⟨cache, run, rfl⟩ := Option.map_eq_some_iff.mp moved
      exact .assign has (modifyEntry_spec held.initialised (inside q j (.writing has)) run)
    · cases moved
  · simp only [State.step] at moved
    split at moved
    · rename_i id q j has
      obtain ⟨cache, run, rfl⟩ := Option.map_eq_some_iff.mp moved
      exact .dirty has (modifyEntry_spec held.initialised (inside q j (.writing has)) run)
    · cases moved
  · simp only [State.step] at moved
    split at moved
    · rename_i id q j has
      obtain ⟨cache, run, rfl⟩ := Option.map_eq_some_iff.mp moved
      obtain ⟨lastused, replaces⟩ := putback_spec held.initialised (inside q j (.writing has)) run
      exact .putback has replaces
    · cases moved
  · simp only [State.step] at moved
    split at moved
    · rename_i q j at_
      cases moved
      exact .save at_
    · cases moved
  · simp only [State.step] at moved
    split at moved
    · rename_i q j at_
      obtain ⟨cache, run, rfl⟩ := Option.map_eq_some_iff.mp moved
      exact .clear at_ (modifyEntry_spec held.initialised (inside q j (.inr (.inr at_))) run)
    · cases moved

theorem step_effect (held : Held s) (careful : Careful s a) (moved : s.step a = some t) :
    Effect s a t := by
  cases a with
  | attempt c => exact attempt_effect held moved
  | scan c => exact scan_effect held moved
  | assign c v => exact holder_effect held moved (.inl ⟨v, rfl⟩)
  | dirty c => exact holder_effect held moved (.inr (.inl rfl))
  | putback c flag => exact holder_effect held moved (.inr (.inr (.inl ⟨flag, rfl⟩)))
  | save c => exact holder_effect held moved (.inr (.inr (.inr (.inl rfl))))
  | clear c => exact holder_effect held moved (.inr (.inr (.inr (.inr rfl))))
  | get c id type =>
      simp only [State.step] at moved
      split at moved
      · rename_i at_
        obtain ⟨asks, moved⟩ := Option.ite_none_right_eq_some.mp moved
        cases moved
        refine quiet_goto (at_ ▸ trivial) trivial ?_
        rintro _ ⟨⟩
        exact asks
      · cases moved
  | goOn c =>
      simp only [State.step] at moved
      split at moved
      · rename_i id type handle has
        cases moved
        have asks : valid id := held.asks c id (by rw [has]; rfl)
        cases type with
        | getForWrite =>
            rw [Careful, has] at careful
            cases careful
        | getForRead =>
            refine quiet_goto (has ▸ trivial) trivial ?_
            rintro _ ⟨⟩
            exact asks
      · cases moved
  | giveUp c | flush c =>
      simp only [State.step] at moved
      split at moved
      · rename_i at_
        cases moved
        exact quiet_goto (at_ ▸ trivial) trivial (by simp [Pc.id?])
      · cases moved
  | read c =>
      simp only [State.step] at moved
      split at moved
      · rename_i has
        cases moved
        exact quiet_goto (has ▸ trivial) trivial (by simp [Pc.id?])
      · cases moved

/-! ### Holds -/

/-- At the start no entry has been used. -/
theorem start_slot {n b : Nat} {store : Store} (q j : Nat) :
    (start n b store).cache.slot q j = .new := by
  simp only [SSAC.slot, start, initialised, entryAt, Option.getD_some,
    List.getD_eq_getElem?_getD, List.getElem?_replicate]
  split <;> rfl

theorem not_valid_start {n b : Nat} {store : Store} (q j : Nat) :
    ¬ valid ((start n b store).cache.slot q j).id := by
  rw [start_slot, not_valid_new]
  exact Bool.false_ne_true

theorem held_start {n b : Nat} {store : Store} : Held (start n b store) := by
  have none : ∀ c q j, ¬ ((start n b store).client c).Holds q j := fun c =>
    Pc.Free.not_holds trivial
  constructor
  · exact fun q => rfl
  · simp [start, Pc.id?]
  · exact fun c d q j holds => absurd holds (none c q j)
  · exact fun c q j holds => absurd holds (none c q j)
  · exact fun c q j holds => absurd holds (none c q j)
  · simp [start]
  · exact fun q j isValid => absurd isValid (not_valid_start q j)
  · exact fun q j p l isValid => absurd isValid (not_valid_start q j)

/-- A label that an entry has is in its own queue and on no other entry. -/
theorem Held.alone (held : Held s) {e : CacheEntrySimple} (same : e.id = (s.cache.slot q j).id)
    (isValid : valid e.id) : index e.id s.cache.numhashqs = q ∧
      ∀ p l, (p, l) ≠ (q, j) → (s.cache.slot p l).id ≠ e.id := by
  rw [same] at isValid ⊢
  exact ⟨held.placed q j isValid, fun p l other clash =>
    other (held.unique q j p l isValid clash.symm).symm⟩

/-- A label that is missing in its queue is on no entry. -/
theorem Held.fresh (held : Held s) (isValid : valid id)
    (missing : ∀ j, (s.cache.slot (index id s.cache.numhashqs) j).id ≠ id) (p l : Nat) :
    (s.cache.slot p l).id ≠ id := by
  rintro rfl
  have here := held.placed p l isValid
  rw [here] at missing
  exact missing l rfl

/-- A step of client `c` that replaces one entry, which nobody else holds. -/
theorem Held.replace {e : CacheEntrySimple} (held : Held s)
    (replaces : Replaces s.cache t.cache q j e)
    (clients : t.client = Function.update s.client c k)
    (free : ∀ d, d ≠ c → ¬ (s.client d).Holds q j)
    (only : ∀ p l, k.Holds p l → (p, l) = (q, j) ∧ e.busy ∧ valid e.id)
    (mine : ∀ id, k.pc = .writing id → e.id = id) (asks : ∀ id, k.pc.id? = some id → valid id)
    (alone : valid e.id → index e.id s.cache.numhashqs = q ∧
      ∀ p l, (p, l) ≠ (q, j) → (s.cache.slot p l).id ≠ e.id) : Held t := by
  -- A holder is client `c`, or it held another entry before.
  have holders : ∀ d p l, (t.client d).Holds p l →
      d = c ∧ (p, l) = (q, j) ∨ d ≠ c ∧ (s.client d).Holds p l ∧ (p, l) ≠ (q, j) := by
    intro d p l holds
    rw [clients] at holds
    by_cases self : d = c
    · subst self
      rw [Function.update_self] at holds
      exact .inl ⟨rfl, (only p l holds).1⟩
    · rw [Function.update_of_ne self] at holds
      refine .inr ⟨self, holds, fun same => ?_⟩
      cases same
      exact free d self holds
  have held_here : ∀ p l, (t.client c).Holds p l → e.busy ∧ valid e.id := by
    intro p l holds
    rw [clients, Function.update_self] at holds
    exact (only p l holds).2
  constructor
  · exact replaces.initialised
  · intro d id some
    rw [clients] at some
    by_cases self : d = c
    · subst self
      rw [Function.update_self] at some
      exact asks id some
    · rw [Function.update_of_ne self] at some
      exact held.asks d id some
  · intro d d' p l holds holds'
    obtain ⟨rfl, same⟩ | ⟨_, old, other⟩ := holders d p l holds
    · obtain ⟨rfl, _⟩ | ⟨_, _, other⟩ := holders d' p l holds'
      · rfl
      · exact absurd same other
    · obtain ⟨rfl, same⟩ | ⟨_, old', _⟩ := holders d' p l holds'
      · exact absurd same other
      · exact held.one d d' p l old old'
  · intro d p l holds
    obtain ⟨rfl, same⟩ | ⟨_, old, other⟩ := holders d p l holds
    · cases same
      rw [replaces.here]
      exact (held_here _ _ holds).1
    · rw [replaces.others p l other]
      exact held.busy d p l old
  · intro d p l holds
    obtain ⟨rfl, same⟩ | ⟨_, old, other⟩ := holders d p l holds
    · cases same
      rw [replaces.here]
      exact (held_here _ _ holds).2
    · rw [replaces.others p l other]
      exact held.held d p l old
  · intro d id p l has
    obtain ⟨rfl, same⟩ | ⟨self, _, other⟩ := holders d p l (.writing has)
    · cases same
      rw [replaces.here]
      rw [clients, Function.update_self] at has
      apply mine
      rw [has]
    · rw [clients, Function.update_of_ne self] at has
      rw [replaces.others p l other]
      exact held.labelled d id p l has
  · intro p l isValid
    rw [replaces.queues]
    by_cases same : (p, l) = (q, j)
    · cases same
      rw [replaces.here] at isValid ⊢
      exact (alone isValid).1
    · rw [replaces.others p l same] at isValid ⊢
      exact held.placed p l isValid
  · intro p l p' l' isValid same
    by_cases first : (p, l) = (q, j) <;> by_cases second : (p', l') = (q, j)
    · rw [first, second]
    · cases first
      rw [replaces.here] at isValid same
      rw [replaces.others p' l' second] at same
      exact absurd same.symm ((alone isValid).2 p' l' second)
    · cases second
      rw [replaces.here, replaces.others p l first] at same
      rw [replaces.others p l first] at isValid
      exact absurd same ((alone (same ▸ isValid)).2 p l first)
    · rw [replaces.others p l first] at isValid same
      rw [replaces.others p' l' second] at same
      exact held.unique p l p' l' isValid same

/-- A step of client `c` that leaves the entries alone. -/
theorem Held.move (held : Held s) (cache : t.cache = s.cache)
    (clients : t.client = Function.update s.client c k)
    (only : ∀ p l, k.Holds p l → (s.client c).Holds p l) (mine : ∀ id, k.pc ≠ .writing id)
    (asks : ∀ id, k.pc.id? = some id → valid id) : Held t := by
  have holders : ∀ d p l, (t.client d).Holds p l → (s.client d).Holds p l := by
    intro d p l holds
    rw [clients] at holds
    by_cases self : d = c
    · subst self
      rw [Function.update_self] at holds
      exact only p l holds
    · rwa [Function.update_of_ne self] at holds
  constructor
  · rw [cache]
    exact held.initialised
  · intro d id some
    rw [clients] at some
    by_cases self : d = c
    · subst self
      rw [Function.update_self] at some
      exact asks id some
    · rw [Function.update_of_ne self] at some
      exact held.asks d id some
  · exact fun d d' p l holds holds' =>
      held.one d d' p l (holders d p l holds) (holders d' p l holds')
  · rw [cache]
    exact fun d p l holds => held.busy d p l (holders d p l holds)
  · rw [cache]
    exact fun d p l holds => held.held d p l (holders d p l holds)
  · intro d id p l has
    rw [clients] at has
    rw [cache]
    by_cases self : d = c
    · subst self
      rw [Function.update_self] at has
      exact absurd (by rw [has]) (mine id)
    · rw [Function.update_of_ne self] at has
      exact held.labelled d id p l has
  · rw [cache]
    exact held.placed
  · rw [cache]
    exact held.unique

/-- Nobody holds an entry that is not busy. -/
theorem Held.nobody (held : Held s) (idle : (s.cache.slot q j).busy = false) (d : Nat) :
    ¬ (s.client d).Holds q j := by
  intro holds
  have busy := held.busy d q j holds
  rw [idle] at busy
  cases busy

theorem Held.nobody_else (held : Held s) (holds : (s.client c).Holds q j) (d : Nat)
    (other : d ≠ c) :
    ¬ (s.client d).Holds q j :=
  fun holds' => other (held.one d c q j holds' holds)

/-- The client that `get` hands an entry to holds it if it is to write. -/
theorem holds_got {e : CacheEntrySimple} {p l lastused : Nat} (label : e.id = id)
    (isValid : valid id)
    (holds : Client.Holds ⟨.got id type, some (q, j)⟩ p l) :
    (p, l) = (q, j) ∧ (handed type lastused e).busy ∧ valid (handed type lastused e).id := by
  cases type with
  | getForRead => obtain ⟨⟨_, at_⟩, _⟩ | at_ | at_ := holds <;> cases at_
  | getForWrite =>
      obtain ⟨_, has⟩ | at_ | at_ := holds
      · cases has
        refine ⟨rfl, by simp [handed], ?_⟩
        rw [handed, label]
        exact isValid
      · cases at_
      · cases at_

@[simp] theorem got_id? : (Pc.got id type).id? = some id := by
  cases type <;> rfl

theorem got_asks (isValid : valid id) (id' : CacheObjectIdSimple)
    (some : (Pc.got id type).id? = some id') : valid id' := by
  rw [got_id?] at some
  cases some
  exact isValid

theorem got_writing {id' : CacheObjectIdSimple} (at_ : Pc.got id type = .writing id') :
    id = id' := by
  have same : some id = some id' := got_id?.symm.trans (congrArg Pc.id? at_)
  exact Option.some.inj same

/-- The holder of an entry changes it, and keeps its id and the BUSY flag. -/
theorem Held.rewrite {e : CacheEntrySimple} (held : Held s)
    (has : s.client c = ⟨.writing id, some (q, j)⟩) (replaces : Replaces s.cache t.cache q j e)
    (clients : t.client = s.client)
    (keeps : e.id = (s.cache.slot q j).id ∧ e.busy = (s.cache.slot q j).busy) : Held t := by
  have holds := Client.Holds.writing has
  have busy := held.busy c q j holds
  have isValid := held.held c q j holds
  refine held.replace (c := c) replaces (clients.trans (Function.update_eq_self c s.client).symm)
    (held.nobody_else holds) ?_ ?_ (held.asks c) (held.alone keeps.1)
  · exact fun p l holds' => ⟨holds'.unique holds, keeps.2.trans busy, keeps.1.symm ▸ isValid⟩
  · intro id' at_
    rw [has] at at_
    cases at_
    exact keeps.1.trans (held.labelled c id q j has)

theorem Held.effect (held : Held s) (effect : Effect s a t) : Held t := by
  cases effect with
  | quiet before after asks =>
      exact held.move rfl rfl
        (fun p l holds => absurd holds (after.not_holds p l)) after.ne_writing asks
  | @hit c q i lastused id type cache before asks found idle replaces =>
      apply held.replace (k := ⟨.got id type, some (q, i)⟩) (c := c) replaces rfl
      · exact fun d _ => held.nobody idle d
      · exact fun p l => holds_got found asks
      · exact fun id' at_ => found.trans (got_writing at_)
      · exact got_asks asks
      · exact held.alone rfl
  | @miss c q i lastused id type cache before asks home missing _ idle replaces =>
      apply held.replace (k := ⟨.got id type, some (q, i)⟩) (c := c) replaces rfl
      · exact fun d _ => held.nobody idle d
      · exact fun p l => holds_got (e := reload s.store id (s.cache.slot q i)) rfl asks
      · exact fun id' at_ => got_writing at_
      · exact got_asks asks
      · subst home
        exact fun _ => ⟨rfl, fun p l _ => held.fresh asks missing p l⟩
  | assign has replaces => exact held.rewrite has replaces rfl ⟨rfl, rfl⟩
  | dirty has replaces => exact held.rewrite has replaces rfl ⟨rfl, rfl⟩
  | @putback c q j lastused id flag cache has replaces =>
      refine held.replace (c := c) replaces rfl (held.nobody_else (.writing has)) ?_ ?_ ?_
        (held.alone rfl)
      · exact fun p l holds => (Pc.Free.not_holds (by trivial) p l holds).elim
      · simp
      · simp [Pc.id?]
  | @hold c q j cache at_ flush replaces =>
      simp only [flushes, Bool.and_eq_true, Bool.not_eq_eq_eq_not, Bool.not_true] at flush
      refine held.replace (c := c) replaces rfl (fun d _ => held.nobody flush.1.1 d) ?_ ?_ ?_
        (held.alone rfl)
      · rintro p l (⟨⟨_, at'⟩, _⟩ | at' | at')
        · cases at'
        · cases at'
          exact ⟨rfl, rfl, flush.1.2⟩
        · cases at'
      · simp
      · simp [Pc.id?]
  | @save c q j at_ =>
      refine held.move rfl rfl ?_ ?_ ?_
      · rintro p l (⟨⟨_, at'⟩, _⟩ | at' | at')
        · cases at'
        · cases at'
        · cases at'
          exact .inr (.inl at_)
      · simp
      · simp [Pc.id?]
  | @clear c q j cache at_ replaces =>
      refine held.replace (c := c) replaces rfl (held.nobody_else (.inr (.inr at_))) ?_ ?_ ?_
        (held.alone rfl)
      · exact fun p l holds => (Pc.Free.not_holds (by trivial) p l holds).elim
      · simp
      · simp [Pc.id?]

/-- Only a miss gives an entry another id, and only an entry that is not BUSY. -/
theorem Effect.id_slot (effect : Effect s a t) :
    (t.cache.slot q j).id = (s.cache.slot q j).id ∨
      reuses q j s a ∧ (s.cache.slot q j).busy = false := by
  have replaced : ∀ {p l e}, Replaces s.cache t.cache p l e → e.id = (s.cache.slot p l).id →
      (t.cache.slot q j).id = (s.cache.slot q j).id := by
    intro p l e replaces same
    by_cases here : (q, j) = (p, l)
    · cases here
      rw [replaces.here, same]
    · rw [replaces.others q j here]
  cases effect with
  | quiet | save => exact .inl rfl
  | @miss c p l _ _ _ _ _ _ _ _ reused idle replaces =>
      by_cases here : (q, j) = (p, l)
      · cases here
        exact .inr ⟨reused, idle⟩
      · exact .inl (congrArg _ (replaces.others q j here))
  | hit _ _ _ _ replaces => exact .inl (replaced replaces rfl)
  | assign _ replaces | dirty _ replaces | putback _ replaces =>
      exact .inl (replaced replaces rfl)
  | hold _ _ replaces => exact .inl (replaced replaces rfl)
  | clear _ replaces => exact .inl (replaced replaces rfl)

/-- A busy entry keeps its id. -/
theorem Effect.label (effect : Effect s a t) (busy : (s.cache.slot q j).busy) :
    (t.cache.slot q j).id = (s.cache.slot q j).id := by
  obtain same | ⟨_, idle⟩ := effect.id_slot
  · exact same
  · rw [busy] at idle
    cases idle

/-! ### Values -/

theorem kept_start {n b : Nat} {store : Store} : Kept (start n b store) := by
  constructor
  · simp [start]
  · simp [start]
  · simp [start]
  · exact fun q j isValid => absurd isValid (not_valid_start q j)

/-- A value put back dirty is in the store, in a given entry, or in another one. -/
theorem Kept.somewhere_or (kept : Kept s) (q j : Nat) (latest : s.latest id = some v) :
    s.store id = v ∨ ((s.cache.slot q j).id = id ∧ (s.cache.slot q j).dirty) ∨
      ∃ p l, (p, l) ≠ (q, j) ∧ (s.cache.slot p l).id = id ∧ (s.cache.slot p l).dirty := by
  obtain stored | ⟨p, l, label, dirty⟩ := kept.somewhere id v latest
  · exact .inl stored
  · by_cases here : (p, l) = (q, j)
    · cases here
      exact .inr (.inl ⟨label, dirty⟩)
    · exact .inr (.inr ⟨p, l, here, label, dirty⟩)

/-- A step of client `c` that replaces one entry, which nobody else holds. -/
theorem Kept.replace {e : CacheEntrySimple} (kept : Kept s) (held : Held s)
    (replaces : Replaces s.cache t.cache q j e) (clients : t.client = Function.update s.client c k)
    (away : ∀ p l, k.pc ≠ .clearing p l) (free : ∀ d, d ≠ c → ¬ (s.client d).Holds q j)
    (store : ∀ p l, (p, l) ≠ (q, j) → valid (s.cache.slot p l).id →
      t.store (s.cache.slot p l).id = s.store (s.cache.slot p l).id)
    (current : ∀ id v, t.latest id = some v → valid id ∧ (e.id = id → e.data = v) ∧
      ∀ p l, (p, l) ≠ (q, j) → (s.cache.slot p l).id = id → (s.cache.slot p l).data = v)
    (somewhere : ∀ id v, t.latest id = some v → t.store id = v ∨ (e.id = id ∧ e.dirty) ∨
      ∃ p l, (p, l) ≠ (q, j) ∧ (s.cache.slot p l).id = id ∧ (s.cache.slot p l).dirty)
    (logged : valid e.id → (e.id, e.data) ∈ t.log) (log : ∀ x ∈ s.log, x ∈ t.log) : Kept t := by
  constructor
  · intro d p l at_
    rw [clients] at at_
    by_cases self : d = c
    · subst self
      rw [Function.update_self] at at_
      exact absurd at_ (away p l)
    · rw [Function.update_of_ne self] at at_
      have other : (p, l) ≠ (q, j) := by
        rintro ⟨⟩
        exact free d self (.inr (.inr at_))
      rw [replaces.others p l other, store p l other (held.held d p l (.inr (.inr at_)))]
      exact kept.saved d p l at_
  · intro id v latest
    obtain ⟨isValid, here, others⟩ := current id v latest
    refine ⟨isValid, fun p l label => ?_⟩
    by_cases same : (p, l) = (q, j)
    · cases same
      rw [replaces.here] at label ⊢
      exact here label
    · rw [replaces.others p l same] at label ⊢
      exact others p l same label
  · intro id v latest
    obtain stored | dirty | ⟨p, l, other, dirty⟩ := somewhere id v latest
    · exact .inl stored
    · refine .inr ⟨q, j, ?_⟩
      rwa [replaces.here]
    · refine .inr ⟨p, l, ?_⟩
      rwa [replaces.others p l other]
  · intro p l isValid
    by_cases same : (p, l) = (q, j)
    · cases same
      rw [replaces.here] at isValid ⊢
      exact logged isValid
    · rw [replaces.others p l same] at isValid ⊢
      exact log _ (kept.logged p l isValid)

/-- A step that changes neither the id nor the data of the entry, and does not clean it. -/
theorem Kept.same {e : CacheEntrySimple} (kept : Kept s) (held : Held s)
    (replaces : Replaces s.cache t.cache q j e) (clients : t.client = Function.update s.client c k)
    (away : ∀ p l, k.pc ≠ .clearing p l) (free : ∀ d, d ≠ c → ¬ (s.client d).Holds q j)
    (store : t.store = s.store) (latest : t.latest = s.latest) (log : t.log = s.log)
    (label : e.id = (s.cache.slot q j).id) (data : e.data = (s.cache.slot q j).data)
    (dirty : (s.cache.slot q j).dirty → e.dirty) : Kept t := by
  apply kept.replace held replaces clients away free
  · exact fun _ _ _ _ => congrFun store _
  · intro id v some
    rw [latest] at some
    obtain ⟨isValid, all⟩ := kept.current id v some
    refine ⟨isValid, fun here => ?_, fun p l _ => all p l⟩
    rw [data]
    exact all q j (label ▸ here)
  · intro id v some
    rw [latest] at some
    obtain stored | ⟨here, old⟩ | other := kept.somewhere_or q j some
    · exact .inl (store ▸ stored)
    · exact .inr (.inl ⟨label.trans here, dirty old⟩)
    · exact .inr (.inr other)
  · intro isValid
    rw [label] at isValid
    rw [log, label, data]
    exact kept.logged q j isValid
  · rw [log]
    exact fun _ member => member

theorem got_ne_clearing (p l : Nat) : Pc.got id type ≠ .clearing p l := by
  cases type <;> simp [Pc.got]

/-- What a miss evicts is in the store afterwards. -/
theorem evict_self {store : Store} {e : CacheEntrySimple} (dirty : e.dirty) :
    evict store e e.id = e.data := by
  rw [evict, if_pos dirty, Function.update_self]

theorem evict_of_ne {store : Store} {e : CacheEntrySimple} (other : e.id ≠ id) :
    evict store e id = store id := by
  rw [evict]
  split
  · exact Function.update_of_ne other.symm _ _
  · rfl

theorem Kept.missed {lastused : Nat} (kept : Kept s) (held : Held s) (asks : valid id)
    (home : index id s.cache.numhashqs = q) (missing : ∀ j, (s.cache.slot q j).id ≠ id)
    (idle : (s.cache.slot q j).busy = false)
    (replaces : Replaces s.cache cache q j
      (handed type lastused (reload s.store id (s.cache.slot q j)))) :
    Kept ({ s with
      cache
      store := evict s.store (s.cache.slot q j)
      log := (id, evict s.store (s.cache.slot q j) id) :: s.log }.hand c id type (q, j)) := by
  have fresh : ∀ p l, (s.cache.slot p l).id ≠ id := by
    subst home
    exact held.fresh asks missing
  apply kept.replace (c := c) (k := ⟨.got id type, some (q, j)⟩) held replaces rfl
  · exact got_ne_clearing
  · exact fun d _ => held.nobody idle d
  · intro p l other isValid
    exact evict_of_ne fun same => other (held.unique p l q j isValid same.symm)
  · intro id' v latest
    obtain ⟨isValid, all⟩ := kept.current id' v latest
    refine ⟨isValid, ?_, fun p l _ => all p l⟩
    rintro rfl
    -- No entry has the id, so the value is in the store, where the entry loads it.
    obtain stored | ⟨p, l, label, _⟩ := kept.somewhere id v latest
    · exact (evict_of_ne (fresh q j)).trans stored
    · exact absurd label (fresh p l)
  · intro id' v latest
    obtain stored | ⟨label, dirty⟩ | other := kept.somewhere_or q j latest
    · left
      by_cases same : (s.cache.slot q j).id = id'
      · by_cases dirty : (s.cache.slot q j).dirty
        · rw [← (kept.current id' v latest).2 q j same, ← same]
          exact evict_self dirty
        · simpa [State.hand, evict, dirty] using stored
      · exact (evict_of_ne same).trans stored
    · left
      rw [← (kept.current id' v latest).2 q j label, ← label]
      exact evict_self dirty
    · exact .inr (.inr other)
  · exact fun _ => List.mem_cons_self
  · exact fun x member => List.mem_cons_of_mem _ member

theorem Kept.assigned (kept : Kept s) (held : Held s)
    (has : s.client c = ⟨.writing id, some (q, j)⟩)
    (replaces : Replaces s.cache cache q j { s.cache.slot q j with data := v }) :
    Kept { s with cache, latest := Function.update s.latest id none, log := (id, v) :: s.log } := by
  have label := held.labelled c id q j has
  -- Other ids are on other entries.
  have apart : ∀ id' w, Function.update s.latest id none id' = some w →
      s.latest id' = some w ∧ (s.cache.slot q j).id ≠ id' := by
    intro id' w latest
    by_cases same : id' = id
    · subst same
      rw [Function.update_self] at latest
      cases latest
    · rw [Function.update_of_ne same] at latest
      exact ⟨latest, fun clash => same (clash.symm.trans label)⟩
  refine kept.replace (c := c) held replaces (Function.update_eq_self c s.client).symm
    ?_ ?_ ?_ ?_ ?_ ?_ ?_
  · rw [has]
    simp
  · exact held.nobody_else (.writing has)
  · exact fun _ _ _ _ => rfl
  · intro id' w latest
    obtain ⟨old, other⟩ := apart id' w latest
    obtain ⟨isValid, all⟩ := kept.current id' w old
    exact ⟨isValid, fun here => absurd here other, fun p l _ => all p l⟩
  · intro id' w latest
    obtain ⟨old, other⟩ := apart id' w latest
    obtain stored | ⟨here, _⟩ | there := kept.somewhere_or q j old
    · exact .inl stored
    · exact absurd here other
    · exact .inr (.inr there)
  · intro _
    rw [label]
    exact List.mem_cons_self
  · exact fun x member => List.mem_cons_of_mem _ member

theorem Kept.putBack {lastused : Nat} (kept : Kept s) (held : Held s)
    (has : s.client c = ⟨.writing id, some (q, j)⟩)
    (replaces : Replaces s.cache cache q j { s.cache.slot q j with lastused, busy := false }) :
    Kept ({ s with
      cache
      latest := if (s.cache.slot q j).dirty then
          Function.update s.latest id (some (s.cache.slot q j).data)
        else s.latest }.goto c .idle) := by
  have label := held.labelled c id q j has
  have free := held.nobody_else (.writing has)
  by_cases dirty : (s.cache.slot q j).dirty
  · rw [if_pos dirty]
    -- The value of the id is now the one in the entry, which is the only one for the id.
    have cases' : ∀ id' w, Function.update s.latest id (some (s.cache.slot q j).data) id' = some w →
        id' = id ∧ w = (s.cache.slot q j).data ∨ s.latest id' = some w := by
      intro id' w latest
      by_cases same : id' = id
      · subst same
        rw [Function.update_self] at latest
        exact .inl ⟨rfl, (Option.some.inj latest).symm⟩
      · rw [Function.update_of_ne same] at latest
        exact .inr latest
    have asks : valid id := held.asks c id (by rw [has]; rfl)
    refine kept.replace (c := c) held replaces rfl (by simp) free (fun _ _ _ _ => rfl) ?_ ?_ ?_
      fun _ member => member
    · intro id' w latest
      obtain ⟨rfl, rfl⟩ | old := cases' id' w latest
      · refine ⟨asks, fun _ => rfl, fun p l other same => ?_⟩
        have isValid : valid (s.cache.slot p l).id := same ▸ asks
        exact absurd (held.unique p l q j isValid (same.trans label.symm)) other
      · obtain ⟨isValid, all⟩ := kept.current id' w old
        exact ⟨isValid, all q j, fun p l _ => all p l⟩
    · intro id' w latest
      obtain ⟨rfl, rfl⟩ | old := cases' id' w latest
      · exact .inr (.inl ⟨label, dirty⟩)
      · exact kept.somewhere_or q j old
    · exact kept.logged q j
  · rw [if_neg dirty]
    refine kept.same (c := c) held replaces rfl (by simp) free rfl rfl rfl rfl rfl ?_
    exact fun old => absurd old dirty

theorem Kept.save (kept : Kept s) (held : Held s) (at_ : (s.client c).pc = .saving q j) :
    Kept ({ s with
      store := Function.update s.store (s.cache.slot q j).id (s.cache.slot q j).data }.goto c
        (.clearing q j)) := by
  have holds : (s.client c).Holds q j := .inr (.inl at_)
  constructor
  · intro d p l at'
    by_cases self : d = c
    · subst self
      simp only [State.goto, Function.update_self, Pc.clearing.injEq] at at'
      obtain ⟨rfl, rfl⟩ := at'
      exact Function.update_self ..
    · have there : (s.client d).pc = .clearing p l := by
        simpa [State.goto, self] using at'
      have other : (s.cache.slot p l).id ≠ (s.cache.slot q j).id := by
        intro same
        have here := held.unique p l q j (held.held d p l (.inr (.inr there))) same
        cases here
        exact self (held.one d c q j (.inr (.inr there)) holds)
      exact (Function.update_of_ne other _ _).trans (kept.saved d p l there)
  · exact kept.current
  · intro id v latest
    by_cases same : id = (s.cache.slot q j).id
    · left
      rw [← (kept.current id v latest).2 q j same.symm, same]
      exact Function.update_self ..
    · obtain stored | dirty := kept.somewhere id v latest
      · exact .inl ((Function.update_of_ne same _ _).trans stored)
      · exact .inr dirty
  · exact kept.logged

theorem Kept.clear (kept : Kept s) (held : Held s) (at_ : (s.client c).pc = .clearing q j)
    (replaces : Replaces s.cache cache q j
      { s.cache.slot q j with dirty := false, busy := false }) :
    Kept ({ s with cache }.goto c (.flushing q)) := by
  refine kept.replace (c := c) held replaces rfl (by simp) (held.nobody_else (.inr (.inr at_)))
    (fun _ _ _ _ => rfl) ?_ ?_ (kept.logged q j) fun _ member => member
  · intro id v latest
    obtain ⟨isValid, all⟩ := kept.current id v latest
    exact ⟨isValid, all q j, fun p l _ => all p l⟩
  · intro id v latest
    obtain stored | ⟨label, _⟩ | other := kept.somewhere_or q j latest
    · exact .inl stored
    · left
      rw [← (kept.current id v latest).2 q j label, ← label]
      exact kept.saved c q j at_
    · exact .inr (.inr other)

theorem Kept.effect (kept : Kept s) (held : Held s) (effect : Effect s a t) : Kept t := by
  cases effect with
  | @quiet _ c k before after asks =>
      refine ⟨fun d p l at_ => ?_, kept.current, kept.somewhere, kept.logged⟩
      by_cases self : d = c
      · subst self
        simp only [Function.update_self] at at_
        rw [at_] at after
        exact after.elim
      · simp only [Function.update_of_ne self] at at_
        exact kept.saved d p l at_
  | @hit c q i lastused id type cache before asks found idle replaces =>
      exact kept.same (c := c) (k := ⟨.got id type, some (q, i)⟩) held replaces rfl got_ne_clearing
        (fun d _ => held.nobody idle d) rfl rfl rfl rfl rfl fun dirty => dirty
  | miss before asks home missing _ idle replaces =>
      exact kept.missed held asks home missing idle replaces
  | assign has replaces => exact kept.assigned held has replaces
  | @dirty c q j id cache has replaces =>
      refine kept.same (c := c) (k := s.client c) held replaces
        (Function.update_eq_self c s.client).symm ?_
          (held.nobody_else (.writing has)) rfl rfl rfl rfl
        rfl fun _ => rfl
      rw [has]
      simp
  | putback has replaces => exact kept.putBack held has replaces
  | @hold c q j cache at_ flush replaces =>
      simp only [flushes, Bool.and_eq_true, Bool.not_eq_eq_eq_not, Bool.not_true] at flush
      exact kept.same (c := c) held replaces rfl (by simp)
        (fun d _ => held.nobody flush.1.1 d) rfl rfl
        rfl rfl rfl fun dirty => dirty
  | save at_ => exact kept.save held at_
  | clear at_ replaces => exact kept.clear held at_ replaces

/-! ### Runs -/

theorem held_kept_reach {n b : Nat} (run : (machine n b).ReachVia Careful s) : Held s ∧ Kept s := by
  apply run.invariant (I := fun s => Held s ∧ Kept s)
  · rintro _ ⟨store, rfl⟩
    exact ⟨held_start, kept_start⟩
  · intro s a t _ both careful moved
    obtain ⟨held, kept⟩ := both
    have effect := step_effect held careful moved
    exact ⟨held.effect effect, kept.effect held effect⟩

/-- Holds are exclusive and no update is lost, in every run in which no writer goes on after
it was refused. -/
theorem exclusive_of_careful {n b : Nat} (run : (machine n b).ReachVia Careful s) :
    Exclusive s := by
  obtain ⟨held, kept⟩ := held_kept_reach run
  constructor
  · exact held.one
  · exact held.busy
  · exact held.labelled
  · intro a t careful moved c q j holds
    exact (step_effect held careful moved).label (held.busy c q j holds)
  · rintro c q j at_ d ⟨⟨id, at'⟩, has⟩
    obtain rfl := held.one c d q j (.inr (.inl at_)) (.inl ⟨⟨id, at'⟩, has⟩)
    rw [at_] at at'
    cases at'
  · exact held.unique
  · intro id v latest
    obtain stored | ⟨q, j, label, dirty⟩ := kept.somewhere id v latest
    · exact .inl stored
    · exact .inr ⟨q, j, label, dirty, (kept.current id v latest).2 q j label⟩

/-- A second writer waits until the first one has put the entry back. -/
theorem exclusive_of_careful_sample : ∃ s, (machine 1 1).ReachVia Careful s ∧
    s.client 1 = ⟨.writing 5, some (0, 0)⟩ ∧ s.latest 5 = some 42 ∧ Exclusive s := by
  have ran : ((machine 1 1).execVia Careful (start 1 1 fun id => id.toNat)
      [.get 0 5 .getForWrite, .attempt 0, .get 1 5 .getForWrite, .attempt 1, .assign 0 42, .dirty 0,
        .putback 0 .keep, .attempt 1]).map (fun s => (s.client 1, s.latest 5)) =
      some (⟨.writing 5, some (0, 0)⟩, some 42) := by rfl
  obtain ⟨s, ran, final⟩ := Option.map_eq_some_iff.mp ran
  simp only [Prod.mk.injEq] at final
  have run : (machine 1 1).ReachVia Careful s := Machine.reachVia_of_execVia ⟨_, rfl⟩ ran
  exact ⟨s, run, final.1, final.2, exclusive_of_careful run⟩

/-- A refused writer goes on with the entry that it put back before, which another writer has
got since. -/
theorem exists_not_exclusive : ∃ s, (machine 1 1).Reach s ∧
    s.client 0 = ⟨.writing 6, some (0, 0)⟩ ∧ s.client 1 = ⟨.writing 5, some (0, 0)⟩ ∧
      ¬ Exclusive s := by
  have ran : ((machine 1 1).exec (start 1 1 fun id => id.toNat)
      [.get 0 5 .getForWrite, .attempt 0, .assign 0 42, .dirty 0, .putback 0 .keep,
        .get 1 5 .getForWrite, .attempt 1, .get 0 6 .getForWrite, .attempt 0, .goOn 0]).map
          (fun s => (s.client 0, s.client 1)) =
      some (⟨.writing 6, some (0, 0)⟩, ⟨.writing 5, some (0, 0)⟩) := by rfl
  obtain ⟨s, ran, final⟩ := Option.map_eq_some_iff.mp ran
  simp only [Prod.mk.injEq] at final
  have run : (machine 1 1).Reach s := Machine.reachVia_of_execVia ⟨_, rfl⟩ ran
  refine ⟨s, run, final.1, final.2, fun exclusive => ?_⟩
  exact absurd (exclusive.one 0 1 0 0 (.writing final.1) (.writing final.2)) (by decide)

end

end EBBLib.SSACSimpleSharedArray.Clients
