import EBBLib.SSAC.ReplicatedRegisters

/-!
# One client per processor

When no two clients share a processor, the variable `direntry` is never stale where it matters,
and when besides nobody flushes the cache, no copy of a free object is BUSY. Then all runs are
careful.
-/

namespace EBBLib.SSACSimpleReplicatedArray

open SSACSimpleSharedArray (CacheObjectIdSimple CacheEntrySimple GetType PutFlag Store entryAt
  flushes)
open SSACSimpleSharedArray.CacheObjectIdSimple
open SSACSimpleSharedArray.HashQueues (search lruentry)
open Coherence (Register Coherent registers)

/-- A client is in `flush`. -/
def Pc.Flushing : Pc → Prop
  | .flushing _ | .saving .. | .clearing .. => True
  | _ => False

theorem flushing_of_marks {pc : Pc} {id : CacheObjectIdSimple} (marks : (pc.role id).Marks) :
    pc.Flushing := by
  cases pc <;> grind [Pc.role, Pc.Flushing, Coherence.Role.Marks]

/-- Only some clients do anything, none is in `flush`, and a client that remembers an entry of
the directory has no copy on its processor. -/
structure Sole (on : Nat → Nat) (acts : Nat → Prop) (s : State) : Prop where
  idle : ∀ c, ¬ acts c → s.pc c = .idle
  calm : ∀ c, ¬ (s.pc c).Flushing
  missing : ∀ c id type k, s.pc c = .missed id type (some k) →
    search id (s.cache.queue (on c) (s.cache.home id)).entries = none

section

variable {on : Nat → Nat} {acts : Nat → Prop} {s t : State} {c d k : Nat} {action : Action}
  {id : CacheObjectIdSimple} {type : GetType}

/-- A step moves its client only. -/
theorem step_pc (moved : s.step on action = some t) (other : d ≠ action.client) :
    t.pc d = s.pc d := by
  cases action with
  | attempt c =>
      obtain ⟨_, _, moved⟩ := Option.bind_eq_some_iff.mp moved
      obtain ⟨g, _, rfl⟩ := Option.map_eq_some_iff.mp moved
      exact Function.update_of_ne other ..
  | putback c flag =>
      cases at_ : s.pc c <;> simp only [State.step, at_, reduceCtorEq] at moved
      obtain ⟨m, _, rfl⟩ := Option.map_eq_some_iff.mp moved
      exact Function.update_of_ne other ..
  | get c id type =>
      cases at_ : s.pc c <;> simp only [State.step, at_, reduceCtorEq] at moved
      split_ifs at moved
      cases moved
      exact Function.update_of_ne other ..
  | scan c =>
      cases at_ : s.pc c <;> simp only [State.step, at_, reduceCtorEq] at moved
      split_ifs at moved
      · split at moved <;>
        · cases moved
          exact Function.update_of_ne other ..
      · cases moved
        exact Function.update_of_ne other ..
  | write c v =>
      cases at_ : s.pc c <;> simp only [State.step, at_, reduceCtorEq] at moved
      cases moved
      rfl
  | flush c | save c | clear c =>
      cases at_ : s.pc c <;> simp only [State.step, at_, reduceCtorEq] at moved
      cases moved
      exact Function.update_of_ne other ..

theorem search_none_iff {m : SSAC} {vp i : Nat} :
    search id (m.queue vp i).entries = none ↔ id ∉ m.ids vp i := by
  rw [SSAC.ids]
  generalize (m.queue vp i).entries = es
  induction es with
  | nil => simp [search]
  | cons e es ih => by_cases same : id = e.id <;> simp [search, same, ih]

/-- Where a section of `get` leads with an entry of the directory. -/
theorem miss_again {m m' : SSAC} {store store' : Store} {vp : Nat}
    (done : miss m store vp id type = some (.again2 (some k), m', store')) : m' = m := by
  rw [miss] at done
  split_ifs at done
  · simp only [Option.some.injEq, Prod.mk.injEq] at done
    exact done.2.1.symm
  · split at done
    · cases done
    · obtain ⟨_, _, done⟩ := Option.bind_eq_some_iff.mp done
      obtain ⟨_, _, done⟩ := Option.bind_eq_some_iff.mp done
      obtain ⟨_, _, done⟩ := Option.map_eq_some_iff.mp done
      cases done

theorem attempt_again {m' : SSAC} {store' : Store} (asks : s.asks c = some (id, type))
    (attempted : s.attempt on c = some (.again2 (some k), m', store')) :
    m' = s.cache ∧ (s.pc c = .missed id type (some k) ∨
      search id (s.cache.queue (on c) (s.cache.home id)).entries = none) := by
  obtain at_ | ⟨direntry, at_⟩ := asks_cases asks <;> simp only [State.attempt, at_] at attempted
  · unfold getFirst at attempted
    split at attempted
    · split_ifs at attempted
      · cases attempted
      · obtain ⟨_, _, again⟩ := Option.map_eq_some_iff.mp attempted
        cases again
    · next missing =>
        cases type with
        | getForRead => cases attempted
        | getForWrite => exact ⟨miss_again attempted, .inr missing⟩
  · rw [getSecond] at attempted
    split at attempted
    · split_ifs at attempted
      · cases attempted
        exact ⟨rfl, .inl at_⟩
      · obtain ⟨_, _, again⟩ := Option.map_eq_some_iff.mp attempted
        cases again
    · next missing => exact ⟨miss_again attempted, .inr missing⟩

/-- A client that gets to `again2` with an entry of the directory has changed nothing and has no
copy of the object, unless it has been there already. -/
def Again (on : Nat → Nat) (s t : State) (c : Nat) : Prop :=
  ∀ id type k, t.pc c = .missed id type (some k) → t.cache = s.cache ∧
    (s.pc c = .missed id type (some k) ∨
      search id (s.cache.queue (on c) (s.cache.home id)).entries = none)

/-- A client that is neither in `flush` nor in `get` after a step. -/
theorem settled {pc : Pc} (at_ : t.pc c = pc) (calm : ¬ pc.Flushing)
    (elsewhere : ∀ id type k, pc ≠ .missed id type (some k)) :
    ¬ (t.pc c).Flushing ∧ Again on s t c :=
  ⟨at_ ▸ calm, fun id type k there => absurd (at_.symm.trans there) (elsewhere id type k)⟩

theorem step_own (moved : s.step on action = some t) (calm : ¬ (s.pc action.client).Flushing)
    (noFlush : ∀ c, action ≠ .flush c) :
    ¬ (t.pc action.client).Flushing ∧ Again on s t action.client := by
  cases action with
  | attempt c =>
      obtain ⟨⟨id, type⟩, asks, moved⟩ := Option.bind_eq_some_iff.mp moved
      obtain ⟨⟨got, m', store'⟩, attempted, rfl⟩ := Option.map_eq_some_iff.mp moved
      have at_ : (State.goto { s with cache := m', store := store' } c
        (State.after id type got)).pc c = State.after id type got := Function.update_self ..
      cases got with
      | entry j =>
          refine settled at_ ?_ ?_ <;> cases type <;> simp [State.after, Pc.Flushing]
      | noFree => exact settled at_ (by simp [State.after, Pc.Flushing]) (by simp [State.after])
      | again1 => exact settled at_ (by simp [State.after, Pc.Flushing]) (by simp [State.after])
      | again2 direntry =>
          refine ⟨?_, fun id' type' k there => ?_⟩
          · rw [show Action.client (.attempt c) = c from rfl, at_]
            exact not_false
          · obtain ⟨rfl, rfl, rfl⟩ := Pc.missed.inj (at_.symm.trans there)
            exact attempt_again asks attempted
  | get c id type =>
      cases at_ : s.pc c <;> simp only [State.step, at_, reduceCtorEq] at moved
      split_ifs at moved
      cases moved
      exact settled (Function.update_self ..) (by simp [Pc.Flushing]) (by simp)
  | putback c flag =>
      cases at_ : s.pc c <;> simp only [State.step, at_, reduceCtorEq] at moved
      obtain ⟨m, _, rfl⟩ := Option.map_eq_some_iff.mp moved
      exact settled (Function.update_self ..) (by simp [Pc.Flushing]) (by simp)
  | write c v =>
      cases at_ : s.pc c <;> simp only [State.step, at_, reduceCtorEq] at moved
      cases moved
      exact settled at_ (by simp [Pc.Flushing]) (by simp)
  | flush c => exact absurd rfl (noFlush c)
  | scan c | save c | clear c =>
      cases at_ : s.pc c <;> simp only [State.step, at_, reduceCtorEq] at moved
      simp [Action.client, at_, Pc.Flushing] at calm

/-- A step of a client that has its processor to itself and does not flush. -/
theorem Sole.step (h : Sole on acts s) (sole : ∀ c d, acts c → acts d → on c = on d → c = d)
    (acting : acts action.client) (noFlush : ∀ c, action ≠ .flush c)
    (moved : s.step on action = some t) : Sole on acts t := by
  obtain ⟨calm, again⟩ := step_own moved (h.calm action.client) noFlush
  have frame := step_frame moved
  refine ⟨fun c still => ?_, fun c => ?_, fun c id type k at_ => ?_⟩
  · have other : c ≠ action.client := by
      rintro rfl
      exact still acting
    rw [step_pc moved other]
    exact h.idle c still
  · by_cases same : c = action.client
    · rw [same]
      exact calm
    · rw [step_pc moved same]
      exact h.calm c
  · by_cases same : c = action.client
    · subst same
      obtain ⟨cache, before | missing⟩ := again id type k at_
      · rw [cache]
        exact h.missing _ id type k before
      · rwa [cache]
    · rw [step_pc moved same] at at_
      have acting' : acts c := by
        by_contra still
        rw [h.idle c still] at at_
        cases at_
      have missing := h.missing c id type k at_
      rw [search_none_iff] at missing ⊢
      rwa [frame.home, frame.ids (on c) _ fun clash => same (sole c _ acting' acting clash)]

/-- Such steps are careful. -/
theorem Sole.careful {r : CacheObjectIdSimple → Register Nat Nat} (h : Sole on acts s)
    (implements : Implements on s r) : Careful on s action := by
  cases action with
  | attempt c =>
      intro id member
      rw [State.grants] at member
      split at member
      · next id' _ _ asks _ =>
          obtain rfl : id' = id := Option.some.inj member
          have isValid := implements.toHeld.valid asks
          refine ⟨fun vp inside busy => ?_, fun present k there => ?_⟩
          · by_contra free
            obtain ⟨x, view, busy⟩ := (Option.any_eq_true ..).mp busy
            obtain ⟨c, _, marks⟩ := (implements.coherent id' isValid).marked
              (by simpa [State.cell] using free) vp x view busy
            exact h.calm c (flushing_of_marks marks)
          · have missing :
                search id' (s.cache.queue (on c) (s.cache.home id')).entries = none := by
              obtain at_ | ⟨direntry, at_⟩ := asks_cases asks
              · rw [at_] at there
                cases there
              · rw [at_] at there
                obtain rfl : direntry = some k := there
                exact h.missing c id' _ k at_
            rw [missing] at present
            cases present
      · cases member
  | _ => trivial

/-- As long as nobody flushes the cache, clients on processors of their own see registers,
whatever they do. -/
theorem sole_run_registers {n a p : Nat} {as : List Action} (positive : 0 < p) (small : p ≤ 31)
    (inside : ∀ c, on c < p)
    (sole : ∀ x ∈ as, ∀ y ∈ as, on x.client = on y.client → x.client = y.client)
    (noFlush : ∀ c, .flush c ∉ as) (start : (machine n a p on).init s)
    (run : (machine n a p on).exec s as = some t) :
    ∃ r, registers.exec (stored s) ((machine n a p on).events (shows on) s as) = some r ∧
      ∀ id, Valid id → (∀ c, (r id).holder = some c ↔ ∃ j, t.pc c = .writing id j) ∧
        ((r id).holder = none → ∀ vp x, t.cache.view vp id = some x → x.data = (r id).value) := by
  have acting : ∀ x ∈ as, ∃ y ∈ as, y.client = x.client := fun x member => ⟨x, member, rfl⟩
  have sole' : ∀ c d, (∃ x ∈ as, x.client = c) → (∃ y ∈ as, y.client = d) → on c = on d →
      c = d := by
    rintro _ _ ⟨x, first, rfl⟩ ⟨y, second, rfl⟩ clash
    exact sole x first y second clash
  have quiet : ∀ x ∈ as, ∀ c, x ≠ .flush c := by
    rintro _ member c rfl
    exact noFlush c member
  have careful : (machine n a p on).execVia (Careful on) s as = some t := by
    refine Machine.exec_via
      (I := fun s => (∃ r, Implements on s r) ∧ Sole on (fun c => ∃ x ∈ as, x.client = c) s)
      run ⟨⟨_, implements_stored positive small inside start⟩, ?_⟩ ?_ ?_
    · exact ⟨fun c _ => start.2 c, fun c => by rw [start.2 c]; exact not_false,
        fun c id type k at_ => by rw [start.2 c] at at_; cases at_⟩
    · rintro s x member ⟨⟨r, implements⟩, h⟩
      exact h.careful implements
    · rintro s t x member ⟨⟨r, implements⟩, h⟩ moved
      obtain ⟨r', _, implements'⟩ := implements.step (h.careful implements) moved
      exact ⟨⟨r', implements'⟩, h.step sole' (acting x member) (quiet x member) moved⟩
  obtain ⟨r, answered, implements⟩ := careful_run positive small inside start careful
  exact ⟨r, answered, fun id isValid =>
    ⟨implements.holder_iff isValid, implements.copies_eq isValid⟩⟩

theorem handover_sole : ∃ r, registers.exec (stored pair)
    ((machine 1 1 2 (· % 2)).events (shows (· % 2)) pair handover) = some r := by
  have run : (machine 1 1 2 (· % 2)).exec pair handover = some handed :=
    Machine.execVia_mono handover_run fun _ _ _ => trivial
  obtain ⟨r, answered, _⟩ := sole_run_registers (by decide) (by decide) pair_inside (by decide)
    (by simp [handover]) pair_init run
  exact ⟨r, answered⟩

end

end EBBLib.SSACSimpleReplicatedArray
