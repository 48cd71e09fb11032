import EBBLib.Library.Transition
import EBBLib.Msg.Store

/-!
# Sending and handling messages

Any number of cores send messages to each other and handle them. Each section that holds
a lock is one step, and so is a search of the list of representatives, whose nodes stay as
they are once they are on the list. A method that handles a message may send messages.

The id of a core is a number, which `reps` has an entry for only below `LRT_PIC_MAX_PICS`: a
search for another core has no result.

Each call of `msg0` to `msg3` has a ticket of its own, which tells it from other calls
with the same arguments.
-/

namespace EBBLib.Delivery

open MsgMgrPrim CObjEBBRootMultiImp

instance : NeZero maxArgs := ⟨by decide⟩

/-- A call of `msg0` to `msg3`, with the event location, the id and the arguments. -/
inductive Call where
  | msg0 (loc id : Nat)
  | msg1 (loc id a1 : Nat)
  | msg2 (loc id a1 a2 : Nat)
  | msg3 (loc id a1 a2 a3 : Nat)
deriving DecidableEq, Repr

namespace Call

def loc : Call → Nat
  | msg0 loc _ | msg1 loc _ _ | msg2 loc _ _ _ | msg3 loc _ _ _ _ => loc

/-- What `allocMsg` and the call write to a store. -/
def fill (home : Nat) (msg : MsgStore) : Call → MsgStore
  | msg0 _ id => { msg with home, id, numargs := 0 }
  | msg1 _ id a1 => { msg with home, id, numargs := 1, args := Function.update msg.args 0 a1 }
  | msg2 _ id a1 a2 =>
      { msg with
        home, id, numargs := 2
        args := Function.update (Function.update msg.args 0 a1) 1 a2 }
  | msg3 _ id a1 a2 a3 =>
      { msg with
        home, id, numargs := 3
        args := Function.update (Function.update (Function.update msg.args 0 a1) 1 a2) 2 a3 }

end Call

/-- The method that `handleEvent` calls for a store on core `loc`. -/
def invoked (loc : Nat) (msg : MsgStore) : Option Call :=
  match msg.numargs with
  | 0 => some (.msg0 loc msg.id)
  | 1 => some (.msg1 loc msg.id (msg.args 0))
  | 2 => some (.msg2 loc msg.id (msg.args 0) (msg.args 1))
  | 3 => some (.msg3 loc msg.id (msg.args 0) (msg.args 1) (msg.args 2))
  | _ => none

/-- How far a core is in a call. -/
inductive Sending where
  | idle
  /-- About to search the target, with whether it was registered at the call. -/
  | called (ticket : Nat) (call : Call) (registered : Bool)
  | found (ticket : Nat) (call : Call) (target : Nat)
  /-- In `allocMsg`, with an empty freelist. -/
  | mallocing (ticket : Nat) (call : Call) (target : Nat)
  | filling (ticket : Nat) (call : Call) (target msg : Nat)
  | filled (ticket : Nat) (call : Call) (target msg : Nat)
  /-- In `MsgMgrPrim_enqueueMsg`, after the lock was released. -/
  | pushed (ticket : Nat) (call : Call)
deriving DecidableEq, Repr

/-- How far a core is in `handleEvent`. -/
inductive Handling where
  | outside
  | draining
  | dequeued (msg : Nat)
  /-- In the method for a message. -/
  | handling (msg : Nat) (method : Option Call)
  /-- In `freeMsg`, before and after the search of the target. -/
  | freeing (msg : Nat)
  | pushing (msg target : Nat)
deriving DecidableEq, Repr

/-- The method for a message runs, or other code outside of `handleEvent`. -/
def Handling.runs : Handling → Bool
  | outside | handling .. => true
  | _ => false

/-- A call that has returned. -/
inductive Return where
  /-- `EBBRC_OK`. -/
  | ok (ticket : Nat) (call : Call)
  /-- `EBBRC_NOTFOUND`, with whether the target was registered at the call. -/
  | notFound (ticket : Nat) (call : Call) (registered : Bool)
deriving DecidableEq, Repr

/-- The fields from `sent` on record what has happened. A store keeps the ticket of the
call that filled it. -/
structure State where
  stores : Stores
  reps : Reps
  heap : Heap
  rootRefMM : Nat
  /-- The representative of a core, or null. -/
  rep : Nat → Nat
  sending : Nat → Sending
  handling : Nat → Handling
  /-- The nodes of the root, newest first, and the addresses that `EBBPrimMalloc` returned. -/
  nodes : List Nat
  objects : List Nat
  allocated : List Nat
  calls : Nat
  ticket : Nat → Nat
  sent : List (Nat × Call)
  returns : List Return
  handled : Nat → List (Nat × Option Call)

inductive Action where
  | createRep (repRef : Nat)
  | addRepOn (rd : Nat)
  | call (call : Call)
  | findTarget
  | popFree
  | malloc (msg : Nat)
  | fill
  | enqueueMsg
  | return
  | handleEvent
  | dequeueMsgHead
  | invoke
  | handled
  | findHome
  | pushFree
deriving DecidableEq, Repr

namespace State

variable (s : State) (c : Nat)

def setSending (v : Sending) : State := { s with sending := Function.update s.sending c v }

def setHandling (v : Handling) : State := { s with handling := Function.update s.handling c v }

/-- `MsgMgrPrim_createRep` up to the registration. -/
def create (repRef : Nat) : State :=
  { s with
    rep := Function.update s.rep c repRef
    reps := Function.update s.reps repRef (newRep c s.rootRefMM)
    objects := repRef :: s.objects }

/-- A representative for the event location is on the list of the root. -/
def registered (loc : Nat) : Bool :=
  s.nodes.any fun node => (s.reps (s.heap.node node).rep).eventLoc = loc

/-- `MsgMgrPrim_findTarget` on core `c`, on a list that is not longer than all nodes. -/
def findTarget (loc : Nat) : Option (Nat × Reps) :=
  MsgMgrPrim.findTarget (s.nodes.length + 1) s.heap s.reps (s.rep c) loc

/-- The core runs code that may send a message, and finds its representative. -/
def CanCall : Prop :=
  s.rep c ≠ 0 ∧ s.registered c ∧ s.sending c = .idle ∧ (s.handling c).runs

instance : Decidable (s.CanCall c) := inferInstanceAs (Decidable (_ ∧ _ ∧ _ ∧ _))

/-- A step of core `c`. -/
def step : Action → Option State
  | .createRep repRef =>
      if s.rep c = 0 ∧ repRef ≠ 0 ∧ repRef ∉ s.objects then
        some (s.create c repRef)
      else none
  | .addRepOn rd =>
      if s.rep c ≠ 0 ∧ s.registered c = false ∧ rd ≠ 0 ∧ rd ∉ s.nodes then
        (CObjEBBRootMultiImp.addRepOn rd s.heap s.rootRefMM c (s.rep c)).map fun heap =>
          { s with heap, nodes := rd :: s.nodes }
      else none
  | .call call =>
      if s.CanCall c ∧ call.loc < maxPics then
        some ({ s with calls := s.calls + 1 }.setSending c
          (.called s.calls call (s.registered call.loc)))
      else none
  | .findTarget =>
      match s.sending c with
      | .called ticket call registered =>
          (s.findTarget c call.loc).map fun (target, reps) =>
            let s := { s with reps }
            if target = 0 then
              { s with returns := .notFound ticket call registered :: s.returns }.setSending c .idle
            else s.setSending c (.found ticket call target)
      | _ => none
  | .popFree =>
      match s.sending c with
      | .found ticket call target =>
          let (msg, reps) := MsgMgrPrim.popFree s.stores s.reps (s.rep c)
          some ({ s with reps }.setSending c
            (if msg ≠ 0 then .filling ticket call target msg else .mallocing ticket call target))
      | _ => none
  | .malloc msg =>
      match s.sending c with
      | .mallocing ticket call target =>
          if msg ≠ 0 ∧ msg ∉ s.allocated then
            some ({ s with allocated := msg :: s.allocated }.setSending c
              (.filling ticket call target msg))
          else none
      | _ => none
  | .fill =>
      match s.sending c with
      | .filling ticket call target msg =>
          some ({ s with
            stores := Function.update s.stores msg (call.fill c (s.stores msg))
            ticket := Function.update s.ticket msg ticket }.setSending c
              (.filled ticket call target msg))
      | _ => none
  | .enqueueMsg =>
      match s.sending c with
      | .filled ticket call target msg =>
          let (_, stores, reps) := MsgMgrPrim.enqueueMsg s.stores s.reps target msg
          some ({ s with stores, reps, sent := (ticket, call) :: s.sent }.setSending c
            (.pushed ticket call))
      | _ => none
  | .return =>
      match s.sending c with
      | .pushed ticket call =>
          some ({ s with returns := .ok ticket call :: s.returns }.setSending c .idle)
      | _ => none
  | .handleEvent =>
      if s.rep c ≠ 0 ∧ s.sending c = .idle ∧ s.handling c = .outside then
        some (s.setHandling c .draining)
      else none
  | .dequeueMsgHead =>
      match s.handling c with
      | .draining =>
          let (msg, reps) := MsgMgrPrim.dequeueMsgHead s.stores s.reps (s.rep c)
          some ({ s with reps }.setHandling c (if msg ≠ 0 then .dequeued msg else .outside))
      | _ => none
  | .invoke =>
      match s.handling c with
      | .dequeued msg => some (s.setHandling c (.handling msg (invoked c (s.stores msg))))
      | _ => none
  | .handled =>
      match s.handling c with
      | .handling msg method =>
          if s.sending c = .idle then
            some ({ s with
              handled := Function.update s.handled c ((s.ticket msg, method) :: s.handled c) }
                |>.setHandling c (.freeing msg))
          else none
      | _ => none
  | .findHome =>
      match s.handling c with
      | .freeing msg =>
          (s.findTarget c (s.stores msg).home).bind fun (target, reps) =>
            -- `LRT_RCAssert`
            if target ≠ 0 then some ({ s with reps }.setHandling c (.pushing msg target)) else none
      | _ => none
  | .pushFree =>
      match s.handling c with
      | .pushing msg target =>
          let (stores, reps) := MsgMgrPrim.pushFree s.stores s.reps target msg
          some ({ s with stores, reps }.setHandling c .draining)
      | _ => none

end State

section

variable {s : State} {c d : Nat} {v : Sending} {w : Handling}

@[simp] theorem setSending_self : (s.setSending c v).sending c = v := Function.update_self ..

theorem setSending_of_ne (other : d ≠ c) : (s.setSending c v).sending d = s.sending d :=
  Function.update_of_ne other ..

@[simp] theorem setHandling_self : (s.setHandling c w).handling c = w := Function.update_self ..

theorem setHandling_of_ne (other : d ≠ c) : (s.setHandling c w).handling d = s.handling d :=
  Function.update_of_ne other ..

end

/-- There are no representatives, no stores and no messages, and the list of the root is empty. -/
structure Initial (s : State) : Prop where
  rep : ∀ c, s.rep c = 0
  sending : ∀ c, s.sending c = .idle
  handling : ∀ c, s.handling c = .outside
  root : s.heap.root s.rootRefMM = ⟨0, 0⟩
  nodes : s.nodes = []
  objects : s.objects = []
  allocated : s.allocated = []
  sent : s.sent = []
  returns : s.returns = []
  handled : ∀ c, s.handled c = []

def machine : Machine State (Nat × Action) where
  init := Initial
  step s := fun (c, a) => s.step c a

end EBBLib.Delivery
