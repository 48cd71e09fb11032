import EBBLib.SSAC.Holds

/-!
# Readers

A `get` for reading hands out an entry and leaves it free, so a miss may re-use the entry
before the reader looks at it. What the reader finds belongs to the id that the entry has
by then.
-/

namespace EBBLib.SSACSimpleSharedArray.Clients

open CacheObjectIdSimple

/-- No writer goes on after it was refused, and no miss re-uses the entry. -/
def Keeps (q j : Nat) (s : State) (a : Action) : Prop := Careful s a ∧ reuses q j s a = false

instance (q j : Nat) (s : State) (a : Action) : Decidable (Keeps q j s a) :=
  inferInstanceAs (Decidable (_ ∧ _))

section

variable {s t : State} {a : Action} {c q j n b : Nat} {id : CacheObjectIdSimple}

/-- An entry keeps its id until a miss re-uses it. -/
theorem Effect.keeps (effect : Effect s a t) (kept : reuses q j s a = false) :
    (t.cache.slot q j).id = (s.cache.slot q j).id := by
  obtain same | ⟨reused, _⟩ := effect.id_slot
  · exact same
  · rw [kept] at reused
    cases reused

/-- An entry that has been used gets ids of objects only. -/
theorem Effect.used (effect : Effect s a t) (used : valid (s.cache.slot q j).id) :
    valid (t.cache.slot q j).id := by
  have replaced : ∀ {p l e}, Replaces s.cache t.cache p l e →
      (valid (s.cache.slot p l).id → valid e.id) → valid (t.cache.slot q j).id := by
    intro p l e replaces label
    by_cases here : (q, j) = (p, l)
    · cases here
      rw [replaces.here]
      exact label used
    · rwa [replaces.others q j here]
  cases effect with
  | quiet | save => exact used
  | miss _ asks _ _ _ _ replaces => exact replaced replaces fun _ => asks
  | hit _ _ _ _ replaces => exact replaced replaces fun used => used
  | assign _ replaces | dirty _ replaces | putback _ replaces =>
      exact replaced replaces fun used => used
  | hold _ _ replaces => exact replaced replaces fun used => used
  | clear _ replaces => exact replaced replaces fun used => used

theorem Keeps.careful (keeps : Keeps q j s a) : Careful s a :=
  keeps.1

theorem got_reading {id' : CacheObjectIdSimple} {type : GetType}
    (at_ : Pc.got id type = .reading id') :
    id = id' := by
  have same : some id = some id' := got_id?.symm.trans (congrArg Pc.id? at_)
  exact Option.some.inj same

/-- A `get` for reading hands out an entry of the id. -/
theorem Held.got_id (held : Held s) (moved : s.step (.attempt c) = some t)
    (got : t.client c = ⟨.reading id, some (q, j)⟩) : (t.cache.slot q j).id = id := by
  cases at_ : (s.client c).pc with
  | getting id' type =>
      simp only [State.step, at_] at moved
      obtain ⟨⟨result, cache, store⟩, run, rfl⟩ := Option.map_eq_some_iff.mp moved
      cases get_spec held.initialised run with
      | again =>
          have there : (s.client c).pc = .reading id := congrArg Client.pc got
          rw [at_] at there
          cases there
      | noFree => simp [State.goto] at got
      | hit found idle replaces =>
          simp only [State.hand, Function.update_self, replaces.queues, Client.mk.injEq,
            Option.some.injEq, Prod.mk.injEq] at got
          obtain ⟨at', rfl, rfl⟩ := got
          rw [← got_reading at']
          exact (congrArg CacheEntrySimple.id replaces.here).trans found
      | miss missing lru idle replaces =>
          simp only [State.hand, Function.update_self, replaces.queues, Client.mk.injEq,
            Option.some.injEq, Prod.mk.injEq] at got
          obtain ⟨at', rfl, rfl⟩ := got
          rw [← got_reading at']
          exact congrArg CacheEntrySimple.id replaces.here
  | idle | refused | writing | reading | flushing | saving | clearing =>
      simp only [State.step, at_] at moved
      cases moved

/-- The value that a reader finds is one that was loaded or assigned for the id that the entry
has by then. That is the id that the reader asked for unless a miss has re-used the entry since. -/
theorem reads_own {as : List Action} {u : State} (run : (machine n b).ReachVia Careful s)
    (moved : s.step (.attempt c) = some t) (got : t.client c = ⟨.reading id, some (q, j)⟩)
    (later : (machine n b).execVia Careful t as = some u) :
    ((u.cache.slot q j).id, (u.cache.slot q j).data) ∈ u.log ∧
      ((machine n b).execVia (Keeps q j) t as = some u → (u.cache.slot q j).id = id) := by
  have next : (machine n b).ReachVia Careful t := .step (a := .attempt c) run trivial moved
  have held : Held t := (held_kept_reach next).1
  have here : (t.cache.slot q j).id = id := (held_kept_reach run).1.got_id moved got
  have asked : valid (t.cache.slot q j).id := by
    rw [here]
    exact held.asks c id (by rw [got]; rfl)
  constructor
  · have used : Held u ∧ valid (u.cache.slot q j).id := by
      apply Machine.execVia_preserves (I := fun s => Held s ∧ valid (s.cache.slot q j).id) later
      · exact ⟨held, asked⟩
      · rintro s a t ⟨held, used⟩ careful moved
        have effect := step_effect held careful moved
        exact ⟨held.effect effect, effect.used used⟩
    exact (held_kept_reach (next.execVia later)).2.logged q j used.2
  · intro keeps
    have same : Held u ∧ (u.cache.slot q j).id = id := by
      apply Machine.execVia_preserves (I := fun s => Held s ∧ (s.cache.slot q j).id = id) keeps
      · exact ⟨held, here⟩
      · rintro s a t ⟨held, same⟩ ⟨careful, kept⟩ moved
        have effect := step_effect held careful moved
        exact ⟨held.effect effect, (effect.keeps kept).trans same⟩
    exact same.2

/-- Client 0 asks for id 5 in a queue of `b` entries. -/
def asking (b : Nat) : State :=
  (start 1 b fun id => id.toNat).goto 0 (.getting 5 .getForRead)

theorem asking_reach (b : Nat) : (machine 1 b).ReachVia Careful (asking b) :=
  .step (a := .get 0 5 .getForRead) (.init ⟨_, rfl⟩) trivial rfl

/-- A miss re-uses the other entry of the queue. -/
theorem reads_own_sample : ∃ u, (machine 1 2).Reach u ∧ u.client 0 = ⟨.reading 5, some (0, 0)⟩ ∧
    (5, (u.cache.slot 0 0).data) ∈ u.log := by
  have moves : ((asking 2).step (.attempt 0)).map (fun t => (t.client 0,
      ((machine 1 2).execVia (Keeps 0 0) t [.get 1 6 .getForRead, .attempt 1]).map fun u =>
        u.client 0)) =
      some (⟨.reading 5, some (0, 0)⟩, some ⟨.reading 5, some (0, 0)⟩) := by rfl
  obtain ⟨t, moved, final⟩ := Option.map_eq_some_iff.mp moves
  obtain ⟨got, last⟩ := Prod.mk.inj final
  obtain ⟨u, keeps, reading⟩ := Option.map_eq_some_iff.mp last
  have later := Machine.execVia_mono keeps fun _ _ => Keeps.careful
  have next : (machine 1 2).ReachVia Careful t :=
    .step (a := .attempt 0) (asking_reach 2) trivial moved
  obtain ⟨logged, same⟩ := reads_own (asking_reach 2) moved got later
  rw [same keeps] at logged
  exact ⟨u, (next.execVia later).reach, reading, logged⟩

/-- A miss for id 6 re-uses the only entry after a reader has got it for id 5. -/
theorem exists_reads_other : ∃ s t u as, (machine 1 1).ReachVia Careful s ∧
    s.step (.attempt 0) = some t ∧ t.client 0 = ⟨.reading 5, some (0, 0)⟩ ∧
    (machine 1 1).execVia Careful t as = some u ∧ u.client 0 = ⟨.reading 5, some (0, 0)⟩ ∧
    (5, (u.cache.slot 0 0).data) ∉ u.log := by
  have moves : ((asking 1).step (.attempt 0)).map (fun t => (t.client 0,
      ((machine 1 1).execVia Careful t [.get 1 6 .getForRead, .attempt 1]).map fun u =>
        (u.client 0, (u.cache.slot 0 0).data, u.log))) =
      some (⟨.reading 5, some (0, 0)⟩,
        some (⟨.reading 5, some (0, 0)⟩, 6, [(6, 6), (5, 5)])) := by rfl
  obtain ⟨t, moved, final⟩ := Option.map_eq_some_iff.mp moves
  obtain ⟨got, last⟩ := Prod.mk.inj final
  obtain ⟨u, later, final⟩ := Option.map_eq_some_iff.mp last
  simp only [Prod.mk.injEq] at final
  obtain ⟨reading, data, log⟩ := final
  refine ⟨asking 1, t, u, _, asking_reach 1, moved, got, later, reading, ?_⟩
  rw [data, log]
  decide

end

end EBBLib.SSACSimpleSharedArray.Clients
