import EBBLib.Library.Transition
import EBBLib.Root.Multi
import EBBLib.Trans.Alloc

/-!
# Creation of the primitive managers

Every core runs `EBBMemMgrPrimInit`, `EBBMgrPrimInit` and `EventMgrPrimImpInit`, in
this order. The core whose compare-and-swap on the global id wins creates the root,
allocates and binds an id, and publishes it in place of the sentinel -1. The others
wait for the sentinel to disappear.

Each compare-and-swap, store and load on a global id is a step of its own. Object
calls reach the manager whose id they go through, and a core does not come back from
a call through 0 or -1. What calls cache in local entries is left out, since nothing
here reads it.
-/

namespace EBBLib.EBBInit

open EBBLib.Trans

/-- The managers, in the order in which `EBB_init` initializes them. -/
inductive Manager where
  | mem
  | mgr
  | event
deriving DecidableEq, Repr

/-- The position in `EBB_init`. -/
def Manager.stage : Manager → Nat
  | .mem => 0
  | .mgr => 1
  | .event => 2

/-- The manager whose id the wait loop of an init function loads. -/
def waitsOn : Manager → Manager
  | .mem => .mem
  -- `EBBMgrPrimInit` loads `theEBBMemMgrPrimId`.
  | .mgr => .mem
  | .event => .event

/-- What the linked program and the started cores fix. -/
structure Program extends Image where
  numlpics : Nat
  started : 0 < numlpics
  supported : numlpics ≤ maxPics
  /-- The address of `CObjEBBMissFunc`. -/
  missFunc : Nat
  /-- The static root in `EBBMemMgrPrimSimpleInit`. -/
  theRoot : Nat

/-- The value of a global id while its manager is being created. -/
def sentinel : Nat := 2 ^ 64 - 1

/-- Where a core is in one init function. -/
inductive Phase where
  /-- Before the compare-and-swap. -/
  | enter
  /-- The compare-and-swap won. -/
  | create
  | alloc
  | bind (id : Nat)
  | publish (id : Nat)
  /-- The compare-and-swap lost. -/
  | wait
  /-- Behind the publication: the representative of the core. -/
  | install
  | createRep
  | addRep (rep : Nat)
deriving DecidableEq, Repr

/-- Where a core is in `EBB_init`. -/
inductive Pc where
  | run (m : Manager) (p : Phase)
  | done
  | crashed (m : Manager)
deriving DecidableEq, Repr

/-- The init function of the manager has returned. -/
def Pc.Returned : Pc → Manager → Prop
  | .run m' _, m => m.stage < m'.stage
  | .done, _ => True
  | .crashed m', m => m.stage < m'.stage

/-- The global ids, the root variables, memory, the roots, and the cores. The other
fields record which values calls went through, which core won each compare-and-swap,
and which cores created a root or an id. -/
structure State where
  id : Manager → Nat
  rootRef : Manager → Nat
  mem : Mem
  heap : CObjEBBRootMultiImp.Heap
  pc : Nat → Pc
  called : List Nat
  winner : Manager → Option Nat
  rootBy : Manager → List Nat
  idBy : Manager → List Nat

namespace State

def goto (s : State) (core : Nat) (p : Pc) : State := { s with pc := Function.update s.pc core p }

/-- The root at `rootRef` is initialized. -/
def rootCreated (s : State) (core : Nat) (m : Manager) (rootRef : Nat) : State :=
  { s with rootRef := Function.update s.rootRef m rootRef
           heap := CObjEBBRootMultiImp.init s.heap rootRef
           rootBy := Function.update s.rootBy m (core :: s.rootBy m)
           pc := Function.update s.pc core (.run m .alloc) }

/-- The id at the head of the core's portion that is free is taken. -/
def idAllocated (P : Program) (s : State) (core : Nat) (m : Manager) : State :=
  let (id, mem) := transEBBIdAlloc P.toImage core s.mem
  { s with mem
           idBy := Function.update s.idBy m (core :: s.idBy m)
           pc := Function.update s.pc core (.run m (.bind id)) }

/-- The id is bound to the root. -/
def idBound (P : Program) (s : State) (core : Nat) (m : Manager) (id : Nat) : Option State :=
  (transEBBIdBind P.toImage P.numlpics core id P.missFunc (s.rootRef m) s.mem).map fun mem =>
    { s with mem, pc := Function.update s.pc core (.run m (.publish id)) }

/-- An object call through the id of a manager, and what the core does next. -/
def call (s : State) (core : Nat) (caller m : Manager) (next : State → Option State) :
    Option State :=
  let s := { s with called := s.id m :: s.called }
  if s.id m = 0 ∨ s.id m = sentinel then some (s.goto core (.crashed caller)) else next s

end State

/-- Where an init function goes on when the id is there. `EBBMgrPrimInit` returns. -/
def afterId : Manager → Pc
  | .mem => .run .mem .install
  | .mgr => .run .event .enter
  | .event => .run .event .createRep

/-- Where `EBB_init` goes on when an init function has added the representative. -/
def afterRep : Manager → Pc
  | .mem => .run .mgr .enter
  | .mgr => .run .event .enter
  | .event => .done

inductive Action where
  | compareAndSwap (core : Nat)
  | createRoot (core rootRef : Nat)
  | allocId (core : Nat)
  | bindId (core : Nat)
  | publish (core : Nat)
  | load (core : Nat)
  | installRep (core rep : Nat)
  | createRep (core rep : Nat)
  | addRepOn (core node : Nat)
deriving DecidableEq, Repr

/-- The core that an action moves. -/
def Action.core : Action → Nat
  | .compareAndSwap core | .createRoot core _ | .allocId core | .bindId core | .publish core
  | .load core | .installRep core _ | .createRep core _ | .addRepOn core _ => core

/-- A step of a started core. -/
def stepOf (P : Program) (s : State) : Action → Option State
  | .compareAndSwap core =>
      match s.pc core with
      | .run m .enter =>
          if s.id m = 0 then
            some { s with id := Function.update s.id m sentinel
                          winner := Function.update s.winner m (some core)
                          pc := Function.update s.pc core (.run m .create) }
          else some (s.goto core (.run m .wait))
      | _ => none
  | .createRoot core rootRef =>
      match s.pc core with
      | .run .mem .create => some (s.rootCreated core .mem P.theRoot)
      -- `CObjEBBRootMultiImpCreate` gets its memory from the memory manager.
      | .run m .create => s.call core m .mem fun s => some (s.rootCreated core m rootRef)
      | _ => none
  | .allocId core =>
      match s.pc core with
      | .run .event .alloc => s.call core .event .mgr fun s => some (s.idAllocated P core .event)
      | .run m .alloc => some (s.idAllocated P core m)
      | _ => none
  | .bindId core =>
      match s.pc core with
      | .run .event (.bind id) => s.call core .event .mgr fun s => s.idBound P core .event id
      | .run m (.bind id) => s.idBound P core m id
      | _ => none
  | .publish core =>
      match s.pc core with
      | .run m (.publish id) =>
          -- The id of the memory manager is stored by a compare-and-swap with -1.
          if m = .mem ∧ s.id m ≠ sentinel then some (s.goto core (afterId m))
          else some { s with id := Function.update s.id m id
                             pc := Function.update s.pc core (afterId m) }
      | _ => none
  | .load core =>
      match s.pc core with
      | .run m .wait =>
          if s.id (waitsOn m) = sentinel then some s else some (s.goto core (afterId m))
      | _ => none
  | .installRep core rep =>
      match s.pc core with
      | .run .mem .install =>
          let lt := P.id2lt core (s.id .mem)
          some { s with mem := ebbCacheObj P.toImage core s.mem lt rep
                        pc := Function.update s.pc core (.run .mem (.addRep rep)) }
      | _ => none
  | .createRep core rep =>
      match s.pc core with
      | .run .event .createRep =>
          s.call core .event .mem fun s => some (s.goto core (.run .event (.addRep rep)))
      | _ => none
  | .addRepOn core node =>
      match s.pc core with
      | .run m (.addRep rep) =>
          s.call core m .mem fun s =>
            (CObjEBBRootMultiImp.addRepOn node s.heap (s.rootRef m) core rep).map fun heap =>
              { s with heap, pc := Function.update s.pc core (afterRep m) }
      | _ => none

/-- The ids are zero, and `trans_init` has cleared the marks of all entries. -/
def machine (P : Program) : Machine State Action where
  init s := (∀ m, s.id m = 0) ∧ (∀ k, s.mem (P.globalEntry k + 16) = 0) ∧
    (∀ c, s.pc c = .run .mem .enter) ∧ s.called = [] ∧ (∀ m, s.winner m = none) ∧
    (∀ m, s.rootBy m = []) ∧ ∀ m, s.idBy m = []
  step s a := if a.core < P.numlpics then stepOf P s a else none

end EBBLib.EBBInit
