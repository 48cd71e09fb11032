import EBBLib.Root.Multi

/-!
# Message stores

A message travels in a `MsgStore`. Each `MsgMgrPrim` has two lists of stores, linked
through `next`: the queue of messages to handle, and a freelist. Both work from the
head. The functions here are the sections that hold the lock of one list.
-/

namespace EBBLib.MsgMgrPrim

open CObjEBBRootMultiImp

/-- `LRT_PIC_MAX_PICS`. -/
def maxPics : Nat := 64

/-- `MAXARGS`. -/
def maxArgs : Nat := 3

/-- `MsgStore`. -/
structure MsgStore where
  next : Nat
  home : Nat
  id : Nat
  numargs : Nat
  args : Fin maxArgs → Nat

/-- Stores by address. -/
abbrev Stores := Nat → MsgStore

/-- The links between stores. -/
def Stores.next (st : Stores) (a : Nat) : Nat := (st a).next

/-- `msg->next = next`. -/
def Stores.setNext (st : Stores) (msg next : Nat) : Stores :=
  Function.update st msg { st msg with next }

/-- The fields of a `MsgMgrPrim`. -/
structure Rep where
  eventLoc : Nat
  msgqueue : Nat
  freelist : Nat
  reps : Fin maxPics → Nat
  theRootMM : Nat

/-- `self->reps[loc]`. There is no result behind the array, where `theRootMM` is. -/
def Rep.entry (r : Rep) (loc : Nat) : Option Nat :=
  if inside : loc < maxPics then some (r.reps ⟨loc, inside⟩) else none

/-- Representatives by address. -/
abbrev Reps := Nat → Rep

namespace Reps

def setQueue (m : Reps) (r head : Nat) : Reps := Function.update m r { m r with msgqueue := head }

def setFreelist (m : Reps) (r head : Nat) : Reps :=
  Function.update m r { m r with freelist := head }

/-- `self->reps[loc] = rep`. -/
def setRep (m : Reps) (self loc rep : Nat) : Reps :=
  Function.update m self
    { m self with reps := fun i => if i.val = loc then rep else (m self).reps i }

end Reps

/-- The fields that `MsgMgrPrim_createRep` sets. -/
def newRep (myel theRootMM : Nat) : Rep :=
  { eventLoc := myel, msgqueue := 0, freelist := 0, reps := fun _ => 0, theRootMM }

/-- `MsgMgrPrim_enqueueMsg` under the lock: `queueempty`, and the new lists. -/
def enqueueMsg (st : Stores) (m : Reps) (target msg : Nat) : Bool × Stores × Reps :=
  let queueempty := (m target).msgqueue = 0
  let st := st.setNext msg (m target).msgqueue
  (queueempty, st, m.setQueue target msg)

/-- `MsgMgrPrim_dequeueMsgHead`: the head of the queue, or null. -/
def dequeueMsgHead (st : Stores) (m : Reps) (target : Nat) : Nat × Reps :=
  let msg := (m target).msgqueue
  if msg ≠ 0 then (msg, m.setQueue target (st.next msg)) else (msg, m)

/-- `allocMsg` under the lock: the head of the freelist, or null. -/
def popFree (st : Stores) (m : Reps) (self : Nat) : Nat × Reps :=
  let msg := (m self).freelist
  if msg ≠ 0 then (msg, m.setFreelist self (st.next msg)) else (msg, m)

/-- `freeMsg` under the lock. -/
def pushFree (st : Stores) (m : Reps) (target msg : Nat) : Stores × Reps :=
  (st.setNext msg (m target).freelist, m.setFreelist target msg)

/-- The loop of `MsgMgrPrim_findTarget`. The fuel bounds the number of nodes, and `none`
also stands for the failing assertion on `rep`. -/
def findFrom (h : Heap) (m : Reps) (root loc : Nat) : Nat → Nat × Nat → Option Nat
  | 0, _ => none
  | fuel + 1, (node, rep) =>
      if node = 0 then some rep
      else if rep = 0 then none
      else if (m rep).eventLoc = loc then some rep
      else findFrom h m root loc fuel (nextRep h root node)

/-- `MsgMgrPrim_findTarget`: the representative, or null, which it caches in any case. The
nodes that it visits do not change once they are on the list, so this is one step. -/
def findTarget (fuel : Nat) (h : Heap) (m : Reps) (self loc : Nat) : Option (Nat × Reps) :=
  ((m self).entry loc).bind fun rep =>
    if rep = 0 then
      let root := (m self).theRootMM
      (findFrom h m root loc fuel (nextRep h root 0)).map fun rep => (rep, m.setRep self loc rep)
    else some (rep, m)

section

variable {α β : Type} {st : Stores} {m : Reps} {r a q l : Nat}

/-- A property of the value at one place that the new value has too. -/
theorem comp_update {f : Nat → α} {v : α} (g : α → β) (same : g v = g (f r)) (a : Nat) :
    g (Function.update f r v a) = g (f a) := by
  by_cases here : a = r
  · rw [here, Function.update_self, same]
  · rw [Function.update_of_ne here]

theorem next_setNext (st : Stores) (msg next : Nat) :
    (st.setNext msg next).next = Function.update st.next msg next := by
  funext q
  by_cases here : q = msg
  · simp [Stores.next, Stores.setNext, here]
  · simp [Stores.next, Stores.setNext, here]

theorem setNext_home {msg next : Nat} : (st.setNext msg next a).home = (st a).home :=
  comp_update MsgStore.home (by rfl) a

@[simp] theorem setQueue_self : (m.setQueue r q r).msgqueue = q := by
  simp [Reps.setQueue]

@[simp] theorem setQueue_freelist : (m.setQueue r q a).freelist = (m a).freelist :=
  comp_update Rep.freelist (by rfl) a

@[simp] theorem setFreelist_self : (m.setFreelist r q r).freelist = q := by
  simp [Reps.setFreelist]

@[simp] theorem setFreelist_msgqueue : (m.setFreelist r q a).msgqueue = (m a).msgqueue :=
  comp_update Rep.msgqueue (by rfl) a

@[simp] theorem setRep_eventLoc : (m.setRep r l q a).eventLoc = (m a).eventLoc :=
  comp_update Rep.eventLoc (by rfl) a

@[simp] theorem setRep_theRootMM : (m.setRep r l q a).theRootMM = (m a).theRootMM :=
  comp_update Rep.theRootMM (by rfl) a

@[simp] theorem setRep_msgqueue : (m.setRep r l q a).msgqueue = (m a).msgqueue :=
  comp_update Rep.msgqueue (by rfl) a

@[simp] theorem setRep_freelist : (m.setRep r l q a).freelist = (m a).freelist :=
  comp_update Rep.freelist (by rfl) a

end

end EBBLib.MsgMgrPrim
