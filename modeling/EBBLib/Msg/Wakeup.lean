import EBBLib.Library.Transition
import EBBLib.Msg.Store

/-!
# Interprocessor interrupts

`lrt_pic_loop` blocks in `pselect` with SIGINT unblocked, and looks at `ipiStatus` when
it returns. A sender that has pushed a message onto an empty queue sets the status and
then sends the signal. The first interrupt handler of a core is `startEvent` of L0,
which replaces itself by the handler of the message manager.

Each access to a word that other cores access is a step of its own. A core is one
thread: while it runs a handler, the handler may send messages, one after the other.
SIGINT is blocked outside of `pselect`, and at most one is pending.
-/

namespace EBBLib.Wakeup

open MsgMgrPrim

/-- `lvecs[IPI_VEC]`, which calls the handler that was registered last. -/
inductive Vector where
  | null
  | startEvent
  | handleEvent
deriving DecidableEq, Repr

/-- The fields of a local pic that interrupts use, and whether a SIGINT is pending. -/
structure LPic where
  vector : Vector
  enabled : Bool
  ipiStatus : Bool
  resetStatus : Bool
  pending : Bool
deriving DecidableEq, Repr

/-- Where a core is in `lrt_pic_loop`. -/
inductive Pc where
  /-- The core has not been added. -/
  | down
  /-- In `pselect`, or about to call it. -/
  | pselect
  | testReset
  /-- In `lvecs[RST_VEC]`. -/
  | reset
  | testIpi
  | testEnabled
  | disable
  /-- About to call `lvecs[IPI_VEC]`. -/
  | dispatch
  /-- In `startEvent`, before and behind its acknowledgement. -/
  | startAck
  | starting
  /-- In `handleEvent`: the acknowledgement, the dequeues, and a method between two of them. -/
  | ack
  | dequeue
  | handling
  /-- About to enable the interrupt at the end of the handler. -/
  | enable
  /-- At the end of `dispatchEventLocal`, which enables it again. -/
  | finish
  /-- The other vectors. -/
  | vectors
deriving DecidableEq, Repr

/-- How far a core is in `lrt_pic_ipi`. A sender that has pushed a message onto an empty
queue is told from one that calls `dispatchIPI` for another reason. -/
inductive Sending where
  | idle
  | setStatus (target : Nat) (pushed : Bool)
  | wakeup (target : Nat)
deriving DecidableEq, Repr

structure State where
  stores : Stores
  reps : Reps
  rootRefMM : Nat
  /-- The representative of a core, once it is created, and whether the root knows it. -/
  rep : Nat → Nat
  registered : Nat → Bool
  lastid : Nat
  lpics : Nat → LPic
  pc : Nat → Pc
  sending : Nat → Sending

/-- What a core does next. -/
inductive Action where
  | start
  | interrupted
  | ready
  | testReset
  | l0Start
  | resetDone
  | testIpi
  | testEnabled
  | disable
  | dispatch
  | ackIpi
  | createRep (repRef : Nat)
  | addRepOn
  | startDone
  | dequeue
  | handled
  | enableIpi
  | finish
  | vectorsDone
  /-- `allocMsg`, `freeMsg` and the filling of a store. -/
  | write (msg : Nat) (v : MsgStore)
  | enqueue (target msg : Nat)
  | dispatchIPI (target : Nat)
  | setStatus
  | wakeup
  | vecon (target : Nat)

/-- Code that may send messages is running. -/
def Pc.runs : Pc → Bool
  | .reset | .starting | .handling | .vectors => true
  | _ => false

namespace State

def goto (s : State) (c : Nat) (p : Pc) : State := { s with pc := Function.update s.pc c p }

def setLPic (s : State) (c : Nat) (v : LPic) : State :=
  { s with lpics := Function.update s.lpics c v }

def setSending (s : State) (c : Nat) (v : Sending) : State :=
  { s with sending := Function.update s.sending c v }

/-- The core runs code that may send, and is not in the middle of it. -/
def CanSend (s : State) (c : Nat) : Prop := (s.pc c).runs ∧ s.sending c = .idle

instance (s : State) (c : Nat) : Decidable (s.CanSend c) := inferInstanceAs (Decidable (_ ∧ _))

end State

/-- A step of the loop, by the place that the core is at. -/
def loopStep (s : State) (c : Nat) : Pc → Action → Option State
  -- `lrt_pic_allocate_core_id` and what `lrt_pic_loop` does before its first iteration, for a
  -- core that has an entry in `lpics`.
  | .down, .start =>
      if c < maxPics then
        some (({ s with lastid := max s.lastid c }.setLPic c { s.lpics c with
          enabled := true, resetStatus := true, pending := true }).goto c .pselect)
      else none
  | .pselect, .interrupted =>
      if (s.lpics c).pending then
        some ((s.setLPic c { s.lpics c with pending := false }).goto c .testReset)
      else none
  | .pselect, .ready => some (s.goto c .testReset)
  | .testReset, .testReset =>
      if (s.lpics c).resetStatus then
        some ((s.setLPic c { s.lpics c with resetStatus := false }).goto c .reset)
      else some (s.goto c .testIpi)
  -- `L0Prim_start` registers `startEvent`.
  | .reset, .l0Start => some (s.setLPic c { s.lpics c with vector := .startEvent })
  | .reset, .resetDone => some (s.goto c .testIpi)
  | .testIpi, .testIpi =>
      some (s.goto c (if (s.lpics c).ipiStatus then .testEnabled else .vectors))
  | .testEnabled, .testEnabled =>
      some (s.goto c (if (s.lpics c).enabled then .disable else .vectors))
  | .disable, .disable =>
      some ((s.setLPic c { s.lpics c with enabled := false }).goto c .dispatch)
  | .dispatch, .dispatch =>
      match (s.lpics c).vector with
      | .null => none
      | .startEvent => some (s.goto c .startAck)
      | .handleEvent => some (s.goto c .ack)
  | .startAck, .ackIpi =>
      some ((s.setLPic c { s.lpics c with ipiStatus := false }).goto c .starting)
  -- `MsgMgrPrim_createRep` takes over the interrupt before it tells the root.
  | .starting, .createRep repRef =>
      if s.rep c = 0 ∧ repRef ≠ 0 ∧ ∀ d ≤ s.lastid, s.rep d ≠ repRef then
        some ({ s with rep := Function.update s.rep c repRef
                       reps := Function.update s.reps repRef (newRep c s.rootRefMM) }.setLPic c
          { s.lpics c with vector := .handleEvent })
      else none
  | .starting, .addRepOn =>
      if s.rep c ≠ 0 then some { s with registered := Function.update s.registered c true }
      else none
  | .starting, .startDone => some (s.goto c .enable)
  | .ack, .ackIpi =>
      some ((s.setLPic c { s.lpics c with ipiStatus := false }).goto c .dequeue)
  | .dequeue, .dequeue =>
      let (msg, reps) := dequeueMsgHead s.stores s.reps (s.rep c)
      some ({ s with reps }.goto c (if msg ≠ 0 then .handling else .enable))
  | .handling, .handled => some (s.goto c .dequeue)
  | .enable, .enableIpi =>
      some ((s.setLPic c { s.lpics c with enabled := true }).goto c .finish)
  | .finish, .finish =>
      some ((s.setLPic c { s.lpics c with enabled := true }).goto c .vectors)
  | .vectors, .vectorsDone => some (s.goto c .pselect)
  | _, _ => none

/-- A step of core `c`. -/
def step (s : State) (c : Nat) : Action → Option State
  | .write msg v =>
      if s.CanSend c then some { s with stores := Function.update s.stores msg v } else none
  | .enqueue target msg =>
      if s.CanSend c ∧ s.registered target ∧ msg ≠ 0 then
        let (queueempty, stores, reps) := enqueueMsg s.stores s.reps (s.rep target) msg
        let s := { s with stores, reps }
        -- `dispatchIPI` goes to the event location of the target.
        some (if queueempty then s.setSending c
          (.setStatus (reps (s.rep target)).eventLoc true) else s)
      else none
  | .dispatchIPI target =>
      if s.CanSend c then some (s.setSending c (.setStatus target false)) else none
  | .setStatus =>
      match s.sending c with
      | .setStatus target _ =>
          if s.lastid < target then some (s.setSending c .idle)
          -- The assertion on `lcore` holds for cores that have been added.
          else if s.pc target = .down then none
          else some ((s.setLPic target { s.lpics target with ipiStatus := true }).setSending c
            (.wakeup target))
      | _ => none
  | .wakeup =>
      match s.sending c with
      | .wakeup target =>
          some ((s.setLPic target { s.lpics target with pending := true }).setSending c .idle)
      | _ => none
  | .vecon target =>
      if s.CanSend c ∧ s.pc target ≠ .down then
        some (s.setLPic target { s.lpics target with pending := true })
      else none
  | a => if s.sending c = .idle then loopStep s c (s.pc c) a else none

/-- All cores are down, and `lrt_pic_init` has cleared the pics. -/
def machine : Machine State (Nat × Action) where
  init s := (∀ c, s.pc c = .down) ∧ (∀ c, s.sending c = .idle) ∧ (∀ c, s.rep c = 0) ∧
    (∀ c, s.registered c = false) ∧ ∀ c, s.lpics c = ⟨.null, false, false, false, false⟩
  step s := fun (c, a) => step s c a

end EBBLib.Wakeup
