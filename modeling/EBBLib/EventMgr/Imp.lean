import EBBLib.Library.Transition
import EBBLib.Root.Multi

/-!
# The event manager's representatives

Each core has an `EventMgrPrimImp` with a handler table of its own. The first one is
the master: its lock serializes registrations, which are written to its table and
then to the tables of all representatives on the root's list. A core that starts
later copies the master's table under the same lock and puts its representative on
the list afterwards.

A section that holds a lock for its whole body is one step, and is not enabled while
the lock is taken. `lrt_pic_mapvec` is taken to succeed.
-/

namespace EBBLib.EventMgrPrimImp

open CObjEBBRootMultiImp

/-- `MAXEVENTS`. -/
def maxEvents : Nat := 256

/-- `NOFUNCNUM`. -/
def noFuncNum : Nat := 2 ^ 64 - 1

/-- `lrt_pic_getIPIvec`. -/
def ipiVec : Fin maxEvents := ⟨32, by decide⟩

/-- `HandlerInfoStruc`. The id 0 is the null id. -/
structure HandlerInfo where
  id : Nat
  fn : Nat
deriving DecidableEq, Repr

/-- The fields of a representative. -/
structure Rep where
  lock : Nat
  theRoot : Nat
  handlerInfo : Fin maxEvents → HandlerInfo
  master : Nat
  ipiVecNo : Fin maxEvents

/-- Representatives by address. -/
abbrev Reps := Nat → Rep

namespace Reps

/-- `rep->lock = v`. -/
def setLock (m : Reps) (rep v : Nat) : Reps := Function.update m rep { m rep with lock := v }

/-- `rep->handlerInfo[e] = info`. -/
def setHandler (m : Reps) (rep : Nat) (e : Fin maxEvents) (info : HandlerInfo) : Reps :=
  Function.update m rep
    { m rep with handlerInfo := Function.update (m rep).handlerInfo e info }

end Reps

/-- `spin_lock`, when it does not have to wait. -/
def spinLock (m : Reps) (rep : Nat) : Option Reps :=
  if (m rep).lock = 0 then some (m.setLock rep 1) else none

/-- `spin_unlock`. -/
def spinUnlock (m : Reps) (rep : Nat) : Reps := if (m rep).lock = 1 then m.setLock rep 0 else m

/-! ### Events -/

/-- What `dispatchEventLocal` calls. -/
inductive Invocation where
  | handleEvent (handler : Nat)
  | method (handler fn : Nat)
deriving DecidableEq, Repr

/-- `EventMgrPrim_dispatchEventLocal`, or `none` when its assertion fails. -/
def dispatchEventLocal (self : Rep) (eventNo : Fin maxEvents) : Option Invocation :=
  let handler := (self.handlerInfo eventNo).id
  let fn := (self.handlerInfo eventNo).fn
  if handler = 0 then none
  else if fn = noFuncNum then some (.handleEvent handler)
  else some (.method handler fn)

/-! ### Registration -/

/-- The loop of `lockedReplicateHandler`. The fuel bounds the number of nodes. -/
def replicateFrom (h : Heap) (root : Nat) (e : Fin maxEvents) (info : HandlerInfo) :
    Nat → Nat × Nat → Reps → Option Reps
  | 0, _, _ => none
  | fuel + 1, (node, rep), m =>
      if node = 0 then some m
      else replicateFrom h root e info fuel (nextRep h root node) (m.setHandler rep e info)

/-- `lockedReplicateHandler`. -/
def lockedReplicateHandler (fuel : Nat) (h : Heap) (m : Reps) (root : Nat) (e : Fin maxEvents)
    (info : HandlerInfo) : Option Reps :=
  replicateFrom h root e info fuel (nextRep h root 0) m

/-- `lockedRegisterHandler`. -/
def lockedRegisterHandler (fuel : Nat) (h : Heap) (m : Reps) (master eventNo : Nat)
    (info : HandlerInfo) : Option (EBBRC × Reps) :=
  if inRange : eventNo < maxEvents then
    let e : Fin maxEvents := ⟨eventNo, inRange⟩
    if ((m master).handlerInfo e).id ≠ 0 then some (EBBRC.badParameter, m)
    else
      let m := m.setHandler master e info
      (lockedReplicateHandler fuel h m (m master).theRoot e info).map fun m => (EBBRC.ok, m)
  else some (EBBRC.badParameter, m)

/-- `EventMgrPrim_registerHandler`. -/
def registerHandler (fuel : Nat) (h : Heap) (m : Reps) (self eventNo : Nat) (info : HandlerInfo) :
    Option (EBBRC × Reps) := do
  let master := (m self).master
  let m ← spinLock m master
  let (rc, m) ← lockedRegisterHandler fuel h m master eventNo info
  some (rc, spinUnlock m master)

/-- `EventMgrPrim_registerIPIHandler`. -/
def registerIPIHandler (m : Reps) (self : Nat) (info : HandlerInfo) : Reps :=
  m.setHandler self (m self).ipiVecNo info

/-! ### Creation -/

/-- `EventMgrPrimImp_createRep` up to its own lock. `fresh` is what the memory from
`EBBPrimMalloc` holds. -/
def allocRep (m : Reps) (repRef root : Nat) (fresh : Rep) : Option Reps :=
  spinLock (Function.update m repRef { fresh with theRoot := root, ipiVecNo := ipiVec }) repRef

/-- The branch of the master, behind the compare-and-swap. -/
def initMaster (m : Reps) (repRef : Nat) : Reps :=
  spinUnlock (Function.update m repRef { m repRef with
    master := repRef, handlerInfo := fun _ => { id := 0, fn := noFuncNum } }) repRef

/-- The other branch, up to the master's lock. -/
def setMaster (m : Reps) (repRef mstr : Nat) : Reps :=
  spinUnlock (Function.update m repRef { m repRef with master := mstr }) repRef

/-- The copy of the handler list under both locks. -/
def copyHandlers (m : Reps) (repRef mstr : Nat) : Option Reps := do
  let m ← spinLock m mstr
  let m ← spinLock m repRef
  let m := Function.update m repRef { m repRef with
    handlerInfo := fun i =>
      { (m repRef).handlerInfo i with id := ((m mstr).handlerInfo i).id } }
  some (spinUnlock (spinUnlock m repRef) mstr)

/-! ### The system -/

/-- How far a core is in `EventMgrPrimImpInit`, behind the wait for the id. -/
inductive Phase where
  | idle
  | initializing (repRef : Nat)
  | copying (repRef mstr : Nat)
  | adding (repRef : Nat)
  | started (repRef : Nat)
deriving DecidableEq, Repr

structure State where
  rootRef : Nat
  heap : Heap
  reps : Reps
  theEventMgrPrimMaster : Nat
  phase : Nat → Phase
  used : List Nat

/-- Only cores that have put their representative on the list make calls. -/
inductive Action where
  | createRep (core repRef : Nat) (fresh : Rep)
  | initMaster (core : Nat)
  | copyHandlers (core : Nat)
  | addRepOn (core node : Nat)
  | registerHandler (core eventNo : Nat) (info : HandlerInfo)
  | registerIPIHandler (core : Nat) (info : HandlerInfo)

/-- The compare-and-swap on `theEventMgrPrimMaster`, and the branch it decides. -/
def chooseMaster (s : State) (core repRef : Nat) (m : Reps) : State :=
  if s.theEventMgrPrimMaster = 0 then
    { s with reps := m, theEventMgrPrimMaster := repRef, used := repRef :: s.used,
             phase := Function.update s.phase core (.initializing repRef) }
  else
    { s with reps := setMaster m repRef s.theEventMgrPrimMaster, used := repRef :: s.used,
             phase := Function.update s.phase core
               (.copying repRef s.theEventMgrPrimMaster) }

def step (s : State) : Action → Option State
  | .createRep core repRef fresh =>
      if s.phase core = .idle ∧ repRef ≠ 0 ∧ repRef ∉ s.used then
        (allocRep s.reps repRef s.rootRef fresh).map (chooseMaster s core repRef)
      else none
  | .initMaster core =>
      match s.phase core with
      | .initializing repRef =>
          some { s with reps := EventMgrPrimImp.initMaster s.reps repRef,
                        phase := Function.update s.phase core (.adding repRef) }
      | _ => none
  | .copyHandlers core =>
      match s.phase core with
      | .copying repRef mstr =>
          (EventMgrPrimImp.copyHandlers s.reps repRef mstr).map fun reps =>
            { s with reps, phase := Function.update s.phase core (.adding repRef) }
      | _ => none
  | .addRepOn core node =>
      match s.phase core with
      | .adding repRef =>
          if node ≠ 0 ∧ node ∉ s.used then
            (CObjEBBRootMultiImp.addRepOn node s.heap s.rootRef core repRef).map fun heap =>
              { s with heap, used := node :: s.used,
                       phase := Function.update s.phase core (.started repRef) }
          else none
      | _ => none
  | .registerHandler core eventNo info =>
      match s.phase core with
      | .started self =>
          (EventMgrPrimImp.registerHandler (s.used.length + 1) s.heap s.reps self eventNo info).map
            fun (_, reps) => { s with reps }
      | _ => none
  | .registerIPIHandler core info =>
      match s.phase core with
      | .started self =>
          some { s with reps := EventMgrPrimImp.registerIPIHandler s.reps self info }
      | _ => none

/-- The root has been created and no core has come further. -/
def machine : Machine State Action where
  init s := (∃ h, s.heap = CObjEBBRootMultiImp.init h s.rootRef) ∧
    s.theEventMgrPrimMaster = 0 ∧ (∀ c, s.phase c = .idle) ∧ s.used = []
  step := step

end EBBLib.EventMgrPrimImp
