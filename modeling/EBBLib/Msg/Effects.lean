import EBBLib.Library.Partition
import EBBLib.Msg.Roster

/-!
# What the steps do

A store is on the freelist or in the queue of one core, or one core has it in its hands, as
the sender that fills it or as the handler. A step moves one store at most. This file
describes each step by what it changes.
-/

namespace EBBLib.Delivery

open Chain MsgMgrPrim CObjEBBRootMultiImp Partition

/-- The store that a sender fills. -/
def Sending.store : Sending → Option Nat
  | filling _ _ _ msg | filled _ _ _ msg => some msg
  | _ => none

/-- The call that a sender has a target for. -/
def Sending.target : Sending → Option (Call × Nat)
  | found _ call target | mallocing _ call target | filling _ call target _
  | filled _ call target _ => some (call, target)
  | _ => none

/-- The store that a handler handles or returns. -/
def Handling.store : Handling → Option Nat
  | dequeued msg | handling msg _ | freeing msg | pushing msg _ => some msg
  | _ => none

inductive Place where
  | queue (c : Nat)
  | free (c : Nat)
  | sender (c : Nat)
  | handler (c : Nat)
deriving DecidableEq, Repr

/-- What a step of core `c` does, and which store it moves. -/
inductive Effect (s : State) (c : Nat) : Move Place Nat → State → Prop
  | createRep {repRef : Nat} (first : s.rep c = 0) (nonzero : repRef ≠ 0)
      (fresh : repRef ∉ s.objects) : Effect s c .stay (s.create c repRef)
  | addRepOn {rd : Nat} (created : s.rep c ≠ 0) (nonzero : rd ≠ 0) (fresh : rd ∉ s.nodes) :
      Effect s c .stay (s.register c rd)
  | call {call : Call} (can : s.CanCall c) (inside : call.loc < maxPics) :
      Effect s c .stay ({ s with calls := s.calls + 1 }.setSending c
        (.called s.calls call (s.registered call.loc)))
  | notFound {ticket : Nat} {call : Call} {registered : Bool}
      (at_ : s.sending c = .called ticket call registered) (missing : s.known call.loc = 0) :
      Effect s c .stay ({ s.remember c call.loc with
        returns := .notFound ticket call registered :: s.returns }.setSending c .idle)
  | found {ticket : Nat} {call : Call} {registered : Bool}
      (at_ : s.sending c = .called ticket call registered) (found : s.known call.loc ≠ 0) :
      Effect s c .stay
        ((s.remember c call.loc).setSending c (.found ticket call (s.known call.loc)))
  | popFree {ticket target : Nat} {call : Call} (at_ : s.sending c = .found ticket call target)
      (free : (s.reps (s.rep c)).freelist ≠ 0) :
      Effect s c (.shift (.free c) (.sender c)) ({ s with
        reps :=
          s.reps.setFreelist (s.rep c) (s.stores.next (s.reps (s.rep c)).freelist) }.setSending c
          (.filling ticket call target (s.reps (s.rep c)).freelist))
  | noFree {ticket target : Nat} {call : Call} (at_ : s.sending c = .found ticket call target) :
      Effect s c .stay (s.setSending c (.mallocing ticket call target))
  | malloc {ticket target msg : Nat} {call : Call}
      (at_ : s.sending c = .mallocing ticket call target) (nonzero : msg ≠ 0)
      (fresh : msg ∉ s.allocated) :
      Effect s c (.add (.sender c) msg) ({ s with allocated := msg :: s.allocated }.setSending c
        (.filling ticket call target msg))
  | fill {ticket target msg : Nat} {call : Call}
      (at_ : s.sending c = .filling ticket call target msg) :
      Effect s c .stay ({ s with
        stores := Function.update s.stores msg (call.fill c (s.stores msg))
        ticket := Function.update s.ticket msg ticket }.setSending c
          (.filled ticket call target msg))
  | enqueueMsg {ticket msg : Nat} {call : Call}
      (at_ : s.sending c = .filled ticket call (s.rep call.loc) msg) (target : s.rep call.loc ≠ 0) :
      Effect s c (.shift (.sender c) (.queue call.loc)) ({ s with
        stores := s.stores.setNext msg (s.reps (s.rep call.loc)).msgqueue
        reps := s.reps.setQueue (s.rep call.loc) msg
        sent := (ticket, call) :: s.sent }.setSending c (.pushed ticket call))
  | return {ticket : Nat} {call : Call} (at_ : s.sending c = .pushed ticket call) :
      Effect s c .stay ({ s with returns := .ok ticket call :: s.returns }.setSending c .idle)
  | handleEvent (created : s.rep c ≠ 0) (at_ : s.handling c = .outside) :
      Effect s c .stay (s.setHandling c .draining)
  | dequeueMsg (at_ : s.handling c = .draining) (queued : (s.reps (s.rep c)).msgqueue ≠ 0) :
      Effect s c (.shift (.queue c) (.handler c)) ({ s with
        reps :=
          s.reps.setQueue (s.rep c) (s.stores.next (s.reps (s.rep c)).msgqueue) }.setHandling c
          (.dequeued (s.reps (s.rep c)).msgqueue))
  | drained (at_ : s.handling c = .draining) : Effect s c .stay (s.setHandling c .outside)
  | invoke {msg : Nat} (at_ : s.handling c = .dequeued msg) :
      Effect s c .stay (s.setHandling c (.handling msg (invoked c (s.stores msg))))
  | handled {msg : Nat} {method : Option Call} (at_ : s.handling c = .handling msg method) :
      Effect s c .stay ({ s with
        handled :=
          Function.update s.handled c ((s.ticket msg, method) :: s.handled c) }.setHandling c
          (.freeing msg))
  | findHome {msg : Nat} (at_ : s.handling c = .freeing msg)
      (found : s.known (s.stores msg).home ≠ 0) :
      Effect s c .stay ((s.remember c (s.stores msg).home).setHandling c
        (.pushing msg (s.known (s.stores msg).home)))
  | pushFree {msg h : Nat} (at_ : s.handling c = .pushing msg (s.rep h)) (owner : s.rep h ≠ 0) :
      Effect s c (.shift (.handler c) (.free h)) ({ s with
        stores := s.stores.setNext msg (s.reps (s.rep h)).freelist
        reps := s.reps.setFreelist (s.rep h) msg }.setHandling c .draining)

/-- A core in a call has registered its representative, and one in `handleEvent` has one.
Both know the representative whose list they are going to change. -/
structure Ready (s : State) : Prop where
  roster : Roster s
  sender : ∀ d, s.sending d ≠ .idle → s.rep d ≠ 0 ∧ s.registered d
  handler : ∀ d, s.handling d ≠ .outside → s.rep d ≠ 0
  target : ∀ d call target, (s.sending d).target = some (call, target) →
    target ≠ 0 ∧ target = s.rep call.loc
  owner : ∀ d msg target, s.handling d = .pushing msg target → target ≠ 0 ∧ ∃ h, target = s.rep h

section

variable {s t : State} {c d : Nat} {act : Action} {m : Move Place Nat}

theorem Ready.step_effect (r : Ready s) (moved : s.step c act = some t) : ∃ m, Effect s c m t := by
  cases act with
  | createRep repRef =>
      obtain ⟨⟨first, nonzero, fresh⟩, moved⟩ := Option.ite_none_right_eq_some.mp moved
      cases moved
      exact ⟨_, .createRep first nonzero fresh⟩
  | addRepOn rd =>
      obtain ⟨⟨created, _, nonzero, fresh⟩, moved⟩ := Option.ite_none_right_eq_some.mp moved
      rw [addRepOn_eq r.roster.root.unlocked] at moved
      cases moved
      exact ⟨_, .addRepOn created nonzero fresh⟩
  | call call =>
      obtain ⟨⟨can, inside⟩, moved⟩ := Option.ite_none_right_eq_some.mp moved
      cases moved
      exact ⟨_, .call can inside⟩
  | findTarget =>
      simp only [State.step] at moved
      split at moved
      · rename_i ticket call registered at_
        have created := (r.sender c (by simp [at_])).1
        obtain ⟨found, search, rfl⟩ := Option.map_eq_some_iff.mp moved
        obtain rfl := r.roster.findTarget_some created search
        simp only
        split
        · rename_i missing
          exact ⟨_, .notFound at_ missing⟩
        · rename_i found
          exact ⟨_, .found at_ found⟩
      · cases moved
  | popFree =>
      simp only [State.step] at moved
      split at moved
      · rename_i ticket call target at_
        simp only [MsgMgrPrim.popFree, Option.some.injEq] at moved
        subst moved
        split
        · rename_i free
          exact ⟨_, .popFree at_ free⟩
        · rename_i empty
          exact ⟨_, .noFree at_⟩
      · cases moved
  | malloc msg =>
      simp only [State.step] at moved
      split at moved
      · rename_i at_
        obtain ⟨⟨nonzero, fresh⟩, moved⟩ := Option.ite_none_right_eq_some.mp moved
        cases moved
        exact ⟨_, .malloc at_ nonzero fresh⟩
      · cases moved
  | fill =>
      simp only [State.step] at moved
      split at moved
      · rename_i at_
        cases moved
        exact ⟨_, .fill at_⟩
      · cases moved
  | enqueueMsg =>
      simp only [State.step] at moved
      split at moved
      · rename_i ticket call target msg at_
        obtain ⟨nonzero, rfl⟩ := r.target c call target (by rw [at_]; rfl)
        cases moved
        exact ⟨_, .enqueueMsg at_ nonzero⟩
      · cases moved
  | «return» =>
      simp only [State.step] at moved
      split at moved
      · rename_i at_
        cases moved
        exact ⟨_, .return at_⟩
      · cases moved
  | handleEvent =>
      obtain ⟨⟨created, _, at_⟩, moved⟩ := Option.ite_none_right_eq_some.mp moved
      cases moved
      exact ⟨_, .handleEvent created at_⟩
  | dequeueMsgHead =>
      simp only [State.step] at moved
      split at moved
      · rename_i at_
        simp only [MsgMgrPrim.dequeueMsgHead, Option.some.injEq] at moved
        subst moved
        split
        · rename_i queued
          exact ⟨_, .dequeueMsg at_ queued⟩
        · rename_i empty
          exact ⟨_, .drained at_⟩
      · cases moved
  | invoke =>
      simp only [State.step] at moved
      split at moved
      · rename_i at_
        cases moved
        exact ⟨_, .invoke at_⟩
      · cases moved
  | handled =>
      simp only [State.step] at moved
      split at moved
      · rename_i at_
        obtain ⟨_, moved⟩ := Option.ite_none_right_eq_some.mp moved
        cases moved
        exact ⟨_, .handled at_⟩
      · cases moved
  | findHome =>
      simp only [State.step] at moved
      split at moved
      · rename_i msg at_
        have created := r.handler c (by simp [at_])
        obtain ⟨home, search, moved⟩ := Option.bind_eq_some_iff.mp moved
        obtain rfl := r.roster.findTarget_some created search
        obtain ⟨found, moved⟩ := Option.ite_none_right_eq_some.mp moved
        cases moved
        exact ⟨_, .findHome at_ found⟩
      · cases moved
  | pushFree =>
      simp only [State.step] at moved
      split at moved
      · rename_i msg target at_
        obtain ⟨nonzero, h, rfl⟩ := r.owner c msg target at_
        cases moved
        exact ⟨_, .pushFree at_ nonzero⟩
      · cases moved

/-! ### Representatives -/

theorem names_setQueue {m : Reps} {r head a : Nat} : names (m.setQueue r head a) = names (m a) :=
  comp_update names (by rfl) a

theorem names_setFreelist {m : Reps} {r head a : Nat} :
    names (m.setFreelist r head a) = names (m a) :=
  comp_update names (by rfl) a

theorem Grows.trans {u : State} (first : Grows s t) (second : Grows t u) : Grows s u where
  registered loc registered := second.registered loc (first.registered loc registered)
  rep d created := by
    have same := first.rep d created
    exact (second.rep d (same.symm ▸ created)).trans same

/-- A step of a sender moves core `c` only, which has registered its representative. -/
theorem Ready.sending (r : Ready s) (effect : Effect s c m t) : t.sending = s.sending ∨
    (s.rep c ≠ 0 ∧ s.registered c) ∧ ∃ v, t.sending = Function.update s.sending c v ∧
      ∀ call target, v.target = some (call, target) → target ≠ 0 ∧ target = s.rep call.loc := by
  cases effect with
  | call can => exact .inr ⟨⟨can.1, can.2.1⟩, _, rfl, by simp [Sending.target]⟩
  | notFound at_ | enqueueMsg at_ | «return» at_ =>
      exact .inr ⟨r.sender c (by simp [at_]), _, rfl, by simp [Sending.target]⟩
  | found at_ found =>
      refine .inr ⟨r.sender c (by simp [at_]), _, rfl, ?_⟩
      rintro call target ⟨⟩
      exact ⟨found, (r.roster.known_ne.mp found).2⟩
  | popFree at_ | noFree at_ | malloc at_ | fill at_ =>
      have same := r.target c
      rw [at_] at same
      exact .inr ⟨r.sender c (by simp [at_]), _, rfl, same⟩
  | _ => exact .inl rfl

/-- A step of a handler moves core `c` only, which has a representative. -/
theorem Ready.handling (r : Ready s) (effect : Effect s c m t) : t.handling = s.handling ∨
    s.rep c ≠ 0 ∧ ∃ v, t.handling = Function.update s.handling c v ∧
      ∀ msg target, v = .pushing msg target → target ≠ 0 ∧ ∃ h, target = s.rep h := by
  cases effect with
  | handleEvent created => exact .inr ⟨created, _, rfl, by simp⟩
  | dequeueMsg at_ | drained at_ | invoke at_ | handled at_ | pushFree at_ =>
      exact .inr ⟨r.handler c (by simp [at_]), _, rfl, by simp⟩
  | findHome at_ found =>
      refine .inr ⟨r.handler c (by simp [at_]), _, rfl, ?_⟩
      rintro msg target ⟨⟩
      exact ⟨found, _, (r.roster.known_ne.mp found).2⟩
  | _ => exact .inl rfl

/-- A step leaves the representatives in order. -/
theorem Ready.roster_effect (r : Ready s) (effect : Effect s c m t) : Roster t ∧ Grows s t := by
  have remembers : ∀ {loc} {t : State}, s.rep c ≠ 0 → t.heap = s.heap ∧ t.rootRefMM = s.rootRefMM ∧
      t.nodes = s.nodes → t.rep = s.rep ∧ t.objects = s.objects →
      (∀ a, names (t.reps a) = names ((s.remember c loc).reps a)) → Roster t ∧ Grows s t := by
    intro loc t created list owners same
    obtain ⟨roster, grows⟩ := (r.roster.remember created).frame (t := t) list owners same
    exact ⟨roster, grows_remember.trans grows⟩
  cases effect with
  | createRep first _ fresh =>
      exact ⟨r.roster.create first fresh, r.roster.grows_create first fresh⟩
  | addRepOn created nonzero fresh =>
      exact ⟨r.roster.register created nonzero fresh, grows_register fresh⟩
  | notFound at_ | found at_ =>
      exact remembers (r.sender c (by simp [at_])).1 ⟨rfl, rfl, rfl⟩ ⟨rfl, rfl⟩ fun _ => rfl
  | findHome at_ =>
      exact remembers (r.handler c (by simp [at_])) ⟨rfl, rfl, rfl⟩ ⟨rfl, rfl⟩ fun _ => rfl
  | popFree | pushFree =>
      exact r.roster.frame ⟨rfl, rfl, rfl⟩ ⟨rfl, rfl⟩ fun _ => names_setFreelist
  | enqueueMsg | dequeueMsg =>
      exact r.roster.frame ⟨rfl, rfl, rfl⟩ ⟨rfl, rfl⟩ fun _ => names_setQueue
  | _ => exact r.roster.frame ⟨rfl, rfl, rfl⟩ ⟨rfl, rfl⟩ fun _ => rfl

theorem Ready.effect (r : Ready s) (effect : Effect s c m t) : Ready t := by
  obtain ⟨roster, grows⟩ := r.roster_effect effect
  have keeps : ∀ {target h}, target ≠ 0 ∧ target = s.rep h → target ≠ 0 ∧ target = t.rep h := by
    rintro target h ⟨nonzero, rfl⟩
    exact ⟨nonzero, (grows.rep h nonzero).symm⟩
  refine ⟨roster, fun d some => ?_, fun d some => ?_, fun d call target some => ?_,
    fun d msg target some => ?_⟩
  · have ready : s.rep d ≠ 0 ∧ s.registered d := by
      obtain same | ⟨ready, v, same, _⟩ := r.sending effect
      · exact r.sender d (same ▸ some)
      · by_cases mine : d = c
        · exact mine ▸ ready
        · rw [same, Function.update_of_ne mine] at some
          exact r.sender d some
    exact ⟨(grows.rep d ready.1).symm ▸ ready.1, grows.registered d ready.2⟩
  · have created : s.rep d ≠ 0 := by
      obtain same | ⟨created, v, same, _⟩ := r.handling effect
      · exact r.handler d (same ▸ some)
      · by_cases mine : d = c
        · exact mine ▸ created
        · rw [same, Function.update_of_ne mine] at some
          exact r.handler d some
    exact (grows.rep d created).symm ▸ created
  · apply keeps
    obtain same | ⟨_, v, same, knows⟩ := r.sending effect
    · exact r.target d call target (same ▸ some)
    · by_cases mine : d = c
      · rw [same, mine, Function.update_self] at some
        exact knows call target some
      · rw [same, Function.update_of_ne mine] at some
        exact r.target d call target some
  · have old : target ≠ 0 ∧ ∃ h, target = s.rep h := by
      obtain same | ⟨_, v, same, knows⟩ := r.handling effect
      · exact r.owner d msg target (same ▸ some)
      · by_cases mine : d = c
        · rw [same, mine, Function.update_self] at some
          exact knows msg target some
        · rw [same, Function.update_of_ne mine] at some
          exact r.owner d msg target some
    obtain ⟨nonzero, h, same⟩ := old
    obtain ⟨nonzero, same⟩ := keeps ⟨nonzero, same⟩
    exact ⟨nonzero, h, same⟩

theorem Initial.ready (start : Initial s) : Ready s where
  roster := start.roster
  sender d busy := absurd (start.sending d) busy
  handler d busy := absurd (start.handling d) busy
  target d _ _ some := by simp [start.sending d, Sending.target] at some
  owner d _ _ at_ := by simp [start.handling d] at at_

end

end EBBLib.Delivery
