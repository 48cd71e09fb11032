import Mathlib.Data.Fintype.EquivFin
import EBBLib.Msg.Places

/-!
# No core gets stuck

A store that was filled has a home that has registered its representative, so that the
assertion of `freeMsg` holds. When the ids of all cores are below `LRT_PIC_MAX_PICS`, no search
goes behind the array `reps`, and a core that is in a call or in `handleEvent` can always take
a step.
-/

namespace EBBLib.Delivery

open MsgMgrPrim CObjEBBRootMultiImp Partition

/-- Stores have a home that is registered, except for those that are about to be filled. -/
def Homed (s : State) : Prop :=
  ∀ a ∈ s.allocated, (∃ d ticket call target, s.sending d = .filling ticket call target a) ∨
    s.registered (s.stores a).home

section

variable {s t : State} {c d : Nat} {m : Move Place Nat} {content : Place → List Nat} {v : Sending}

/-- A step that fills no store. -/
theorem Homed.frame (homed : Homed s) (grows : Grows s t) (allocated : t.allocated = s.allocated)
    (home : ∀ a, (t.stores a).home = (s.stores a).home)
    (busy : ∀ d ticket call target a, s.sending d = .filling ticket call target a →
      t.sending d = s.sending d) : Homed t := by
  intro a there
  obtain ⟨d, ticket, call, target, at_⟩ | registered := homed a (allocated ▸ there)
  · exact .inl ⟨d, ticket, call, target, (busy d ticket call target a at_).trans at_⟩
  · rw [home]
    exact .inr (grows.registered _ registered)

/-- A step of a core that is not about to fill a store. -/
theorem busy_update (idle : ∀ ticket call target a, s.sending c ≠ .filling ticket call target a)
    (moved : t.sending = Function.update s.sending c v) (d ticket : Nat) (call : Call)
    (target a : Nat) (at_ : s.sending d = .filling ticket call target a) :
    t.sending d = s.sending d := by
  rw [moved]
  apply Function.update_of_ne
  rintro rfl
  exact idle ticket call target a at_

theorem Homed.malloc {ticket target msg : Nat} {call : Call} (homed : Homed s)
    (at_ : s.sending c = .mallocing ticket call target) :
    Homed ({ s with allocated := msg :: s.allocated }.setSending c
      (.filling ticket call target msg)) := by
  intro a there
  obtain rfl | there := List.mem_cons.mp there
  · exact .inl ⟨c, ticket, call, target, setSending_self⟩
  · obtain ⟨d, k, call', target', at'⟩ | registered := homed a there
    · exact .inl ⟨d, k, call', target',
        (busy_update (by simp [at_]) rfl d k call' target' a at').trans at'⟩
    · exact .inr registered

theorem Homed.fill {ticket target msg : Nat} {call : Call} (homed : Homed s) (r : Ready s)
    (at_ : s.sending c = .filling ticket call target msg) :
    Homed ({ s with
      stores := Function.update s.stores msg (call.fill c (s.stores msg))
      ticket := Function.update s.ticket msg ticket }.setSending c
        (.filled ticket call target msg)) := by
  have registered : s.registered c := (r.sender c (by simp [at_])).2
  intro a there
  by_cases mine : a = msg
  · subst mine
    right
    have home : (Function.update s.stores a (call.fill c (s.stores a)) a).home = c := by
      rw [Function.update_self]
      cases call <;> rfl
    exact (congrArg s.registered home).trans registered
  · obtain ⟨d, k, call', target', at'⟩ | registered := homed a there
    · left
      refine ⟨d, k, call', target', (setSending_of_ne ?_).trans at'⟩
      rintro rfl
      rw [at_] at at'
      cases at'
      exact mine rfl
    · right
      have same : Function.update s.stores msg (call.fill c (s.stores msg)) a = s.stores a :=
        Function.update_of_ne mine ..
      exact (congrArg (fun store => s.registered store.home) same).trans registered

theorem Homed.effect (homed : Homed s) (r : Ready s) (effect : Effect s c m t) : Homed t := by
  have grows := (r.roster_effect effect).2
  cases effect with
  | malloc at_ => exact homed.malloc at_
  | fill at_ => exact homed.fill r at_
  | call can =>
      exact homed.frame grows rfl (fun _ => rfl) (busy_update (by simp [can.2.2.1]) rfl)
  | notFound at_ | found at_ | popFree at_ | noFree at_ | «return» at_ =>
      exact homed.frame grows rfl (fun _ => rfl) (busy_update (by simp [at_]) rfl)
  | enqueueMsg at_ =>
      exact homed.frame grows rfl (fun _ => setNext_home) (busy_update (by simp [at_]) rfl)
  | pushFree => exact homed.frame grows rfl (fun _ => setNext_home) fun _ _ _ _ _ _ => rfl
  | _ => exact homed.frame grows rfl (fun _ => rfl) fun _ _ _ _ _ _ => rfl

/-- `freeMsg` searches for a core that has registered its representative. -/
theorem Homed.registered {msg : Nat} (homed : Homed s) (placed : Placed s content)
    (at_ : s.handling c = .freeing msg) : s.registered (s.stores msg).home := by
  have here : msg ∈ content (.handler c) := by simp [placed.handler_eq at_, Handling.store]
  obtain ⟨d, ticket, call, target, at'⟩ | registered :=
    homed msg ((placed.covers.mem_iff msg).mpr ⟨_, here⟩)
  · have there : msg ∈ content (.sender d) := by simp [placed.sender_eq at', Sending.store]
    exact absurd there (placed.covers.not_mem_of_ne here (by simp))
  · exact registered

/-- Cores with a representative, and the cores that calls search for, have an entry in `reps`. -/
structure Within (s : State) : Prop where
  rep : ∀ c, s.rep c ≠ 0 → c < maxPics
  called : ∀ d ticket call registered, s.sending d = .called ticket call registered →
    call.loc < maxPics

theorem Within.effect (within : Within s) (small : c < maxPics) (effect : Effect s c m t) :
    Within t := by
  -- A core that takes a step begins no call, except for one whose target is within `reps`.
  have called : ∀ {v : Sending}, t.sending = Function.update s.sending c v →
      (∀ ticket call registered, v = .called ticket call registered → call.loc < maxPics) →
      ∀ d ticket call registered, t.sending d = .called ticket call registered →
        call.loc < maxPics := by
    intro v moved new d ticket call registered at_
    rw [moved] at at_
    by_cases mine : d = c
    · rw [mine, Function.update_self] at at_
      exact new ticket call registered at_
    · rw [Function.update_of_ne mine] at at_
      exact within.called d ticket call registered at_
  cases effect with
  | createRep =>
      refine ⟨fun d created => ?_, within.called⟩
      by_cases mine : d = c
      · exact mine ▸ small
      · exact within.rep d (by simpa [State.create, mine] using created)
  | call _ inside =>
      refine ⟨within.rep, called rfl ?_⟩
      rintro ticket call registered ⟨⟩
      exact inside
  | notFound | found | popFree | noFree | malloc | fill | enqueueMsg | «return» =>
      exact ⟨within.rep, called rfl (by simp)⟩
  | _ => exact ⟨within.rep, within.called⟩

/-- A core that sends or handles a message can go on. -/
theorem exists_step (r : Ready s) (homed : Homed s) (within : Within s) (placed : Placed s content)
    (busy : s.sending c ≠ .idle ∨ s.handling c ≠ .outside) : ∃ act, (s.step c act).isSome := by
  cases at_ : s.sending c with
  | called ticket call registered =>
      have created := (r.sender c (by simp [at_])).1
      have inside := within.called c ticket call registered at_
      exact ⟨.findTarget, by simp [State.step, at_, r.roster.findTarget_eq created inside]⟩
  | found => exact ⟨.popFree, by simp [State.step, at_]⟩
  | mallocing =>
      obtain ⟨msg, fresh⟩ := Infinite.exists_notMem_finset (insert 0 s.allocated.toFinset)
      simp only [Finset.mem_insert, List.mem_toFinset, not_or] at fresh
      exact ⟨.malloc msg, by simp [State.step, at_, fresh]⟩
  | filling => exact ⟨.fill, by simp [State.step, at_]⟩
  | filled => exact ⟨.enqueueMsg, by simp [State.step, at_]⟩
  | pushed => exact ⟨.return, by simp [State.step, at_]⟩
  | idle =>
      cases at' : s.handling c with
      | outside => simp [at_, at'] at busy
      | draining => exact ⟨.dequeueMsgHead, by simp [State.step, at']⟩
      | dequeued => exact ⟨.invoke, by simp [State.step, at']⟩
      | handling => exact ⟨.handled, by simp [State.step, at', at_]⟩
      | freeing msg =>
          have created := r.handler c (by simp [at'])
          have registered := homed.registered placed at'
          have inside := within.rep _ (r.roster.registered_rep registered)
          have found : s.known (s.stores msg).home ≠ 0 :=
            r.roster.known_ne.mpr ⟨registered, known_of_registered registered⟩
          exact ⟨.findHome, by
            simp [State.step, at', r.roster.findTarget_eq created inside, found]⟩
      | pushing => exact ⟨.pushFree, by simp [State.step, at']⟩

theorem Initial.within (start : Initial s) : Within s where
  rep c created := absurd (start.rep c) created
  called d _ _ _ at_ := by simp [start.sending d] at at_

theorem Initial.homed (start : Initial s) : Homed s := by
  intro a there
  simp [start.allocated] at there

end

end EBBLib.Delivery
