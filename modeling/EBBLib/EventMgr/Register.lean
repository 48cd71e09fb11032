import EBBLib.EventMgr.Replicas
import EBBLib.Pic.Calls

/-!
# Registration through both layers

`EventMgrPrim_registerHandler` writes the handler tables under the lock of the master, then
maps the vector in the pic, and enables it on the calling core in any case. A call is one
step here. There is no step behind a call that accesses the arrays of the pic outside of
their bounds, since nothing is known of the memory then.
-/

namespace EBBLib.EventMgrPrimImp.Register

open CObjEBBRootMultiImp
open Pic.Vectors (numVec)
open Pic.Unix (Src)

/-- The event manager and the pic. Core `c` of the one is `lrt_pic_myid = c` of the other. -/
structure State where
  mgr : EventMgrPrimImp.State
  pic : Pic.Calls.State

/-- `lockedReplicateHandler` with `NULL` and `NOFUNCNUM`, for an event that is in the tables. -/
def unregister (s : EventMgrPrimImp.State) (m : Reps) (root eventNo : Nat) : Option Reps :=
  if inRange : eventNo < maxEvents then
    lockedReplicateHandler (s.used.length + 1) s.heap m root ⟨eventNo, inRange⟩ ⟨0, noFuncNum⟩
  else none

namespace State

variable (s : State)

/-- `EventMgrPrim_registerHandler` on core `core` with the representative `self`, where
`mapped` says that `dup2` returns the descriptor it is asked for. -/
def registerHandler (vfTbl : Nat → Nat) (core self eventNo : Nat) (info : HandlerInfo)
    (isrc : Src) (mapped : Bool) : Option (EBBRC × State) := do
  let master := (s.mgr.reps self).master
  let m ← spinLock s.mgr.reps master
  let (rc, m) ← lockedRegisterHandler (s.mgr.used.length + 1) s.mgr.heap m (m self).master
    eventNo info
  let (rc, m, pic) ←
    if EBBRC.success rc then do
      let (mapvec, pic) ← s.pic.mapvec isrc eventNo (vfTbl eventNo) mapped
      if mapvec < 0 then
        let m ← unregister s.mgr m (m self).theRoot eventNo
        some (EBBRC.badParameter, m, pic)
      else some (rc, m, pic)
    else some (rc, m, s.pic)
  some (rc, { mgr := { s.mgr with reps := spinUnlock m master }, pic := pic.enable core eventNo })

/-- `EventMgrPrim_eventEnable`. -/
def eventEnable (eventNo : Nat) : EBBRC × State :=
  let (rc, pic) := s.pic.vecon eventNo
  (if rc < 0 then EBBRC.badParameter else EBBRC.ok, { s with pic })

/-- `EventMgrPrim_eventDisable`. -/
def eventDisable (eventNo : Nat) : EBBRC × State :=
  let (rc, pic) := s.pic.vecoff eventNo
  (if rc < 0 then EBBRC.badParameter else EBBRC.ok, { s with pic })

/-- `EventMgrPrim_allocEventNo`, with the event in place of the pointer to it. -/
def allocEventNo : EBBRC × Option Nat × State :=
  let (rc, eventNo, pic) := s.pic.allocvec
  (if rc < 0 then EBBRC.outOfResources else EBBRC.ok, eventNo, { s with pic })

/-- `EventMgrPrim_registerIPIHandler`. -/
def registerIPIHandler (vfTbl : Nat → Nat) (core self : Nat) (info : HandlerInfo) : State where
  mgr := { s.mgr with reps := EventMgrPrimImp.registerIPIHandler s.mgr.reps self info }
  pic := s.pic.mapipi core (vfTbl (s.mgr.reps self).ipiVecNo)

/-- All accesses to the arrays of the pic were inside of them. -/
def Inside : Prop := ∀ a ∈ s.pic.accesses, a.vec < numVec

instance : Decidable s.Inside := inferInstanceAs (Decidable (∀ a ∈ _, _))

/-- The state behind a call. -/
def checked : Option State := if s.Inside then some s else none

end State

inductive Action where
  /-- A step of `EventMgrPrimImpInit`, on a core that is up. -/
  | createRep (core repRef : Nat) (fresh : Rep)
  | initMaster (core : Nat)
  | copyHandlers (core : Nat)
  | addRepOn (core node : Nat)
  | registerHandler (core eventNo : Nat) (info : HandlerInfo) (isrc : Src) (mapped : Bool)
  | eventEnable (core eventNo : Nat)
  | eventDisable (core eventNo : Nat)
  | allocEventNo (core : Nat)
  | registerIPIHandler (core : Nat) (info : HandlerInfo)
  /-- `lrt_pic_enable` after a handler and for interprocessor interrupts. -/
  | enable (core vec : Nat)
  /-- `lrt_pic_disable` before a handler. -/
  | disable (core vec : Nat)
  /-- One more core comes up, and the system provides its logical core. -/
  | startCore (lcore : Nat)
  /-- The memory behind the array of the global vectors changes. -/
  | behind (vec h : Nat)

/-- A step of `EventMgrPrimImpInit`. -/
def State.init (s : State) (a : EventMgrPrimImp.Action) : Option State :=
  (EventMgrPrimImp.step s.mgr a).map fun mgr => { s with mgr }

def step (vfTbl : Nat → Nat) (s : State) : Action → Option State
  | .createRep core repRef fresh =>
      if core ≤ s.pic.lastid then s.init (.createRep core repRef fresh) else none
  | .initMaster core => s.init (.initMaster core)
  | .copyHandlers core => s.init (.copyHandlers core)
  | .addRepOn core node => s.init (.addRepOn core node)
  | .registerHandler core eventNo info isrc mapped =>
      match s.mgr.phase core with
      | .started self =>
          (s.registerHandler vfTbl core self eventNo info isrc mapped).bind fun (_, t) => t.checked
      | _ => none
  | .eventEnable core eventNo =>
      match s.mgr.phase core with
      | .started _ => (s.eventEnable eventNo).2.checked
      | _ => none
  | .eventDisable core eventNo =>
      match s.mgr.phase core with
      | .started _ => (s.eventDisable eventNo).2.checked
      | _ => none
  | .allocEventNo core =>
      match s.mgr.phase core with
      | .started _ => some s.allocEventNo.2.2
      | _ => none
  | .registerIPIHandler core info =>
      match s.mgr.phase core with
      | .started self => some (s.registerIPIHandler vfTbl core self info)
      | _ => none
  | .enable core vec =>
      if core ≤ s.pic.lastid then { s with pic := s.pic.enable core vec }.checked else none
  | .disable core vec =>
      if core ≤ s.pic.lastid then { s with pic := s.pic.disable core vec }.checked else none
  | .startCore lcore =>
      -- The assertions on the id and on the logical core.
      if s.pic.lastid + 1 ≤ Trans.maxPics ∧ lcore ≠ 0 then
        let pic := { s.pic with lastid := s.pic.lastid + 1 }
        some { s with pic := pic.startCore pic.lastid lcore }
      else none
  | .behind vec h =>
      if numVec ≤ vec then
        some { s with pic := { s.pic with gvecs := Function.update s.pic.gvecs vec h } }
      else none

/-- The pic has come up on its first core with the reset handler `h`. -/
def machine (vfTbl : Nat → Nat) (h : Nat) : Machine State Action where
  init s := EventMgrPrimImp.machine.init s.mgr ∧
    ∃ lcore, lcore ≠ 0 ∧ s.pic = Pic.Calls.lrtPicInit h lcore
  step := step vfTbl

/-! ### The representatives -/

/-- A representative that was created for the root. -/
structure Created (s : EventMgrPrimImp.State) (r : Nat) : Prop where
  used : r ∈ s.used
  theRoot : (s.reps r).theRoot = s.rootRef

/-- What holds of the representative of a core in each phase. -/
def Stage (s : EventMgrPrimImp.State) : Phase → Prop
  | .idle => True
  | .initializing r => r = s.theEventMgrPrimMaster
  | .copying r mstr => mstr = s.theEventMgrPrimMaster ∧ Created s r ∧
      (s.reps r).master = s.theEventMgrPrimMaster
  | .adding r | .started r => Created s r ∧ (s.reps r).master = s.theEventMgrPrimMaster ∧
      (s.reps s.theEventMgrPrimMaster).lock = 0

/-- The list and the masters, whatever is in the tables. -/
structure Ready (s : EventMgrPrimImp.State) (xs : List Nat) : Prop where
  registers : Registers s.heap s.rootRef xs
  created : ∀ a ∈ xs, a ∈ s.used
  chosen : ∀ c, s.phase c ≠ .idle → s.theEventMgrPrimMaster ≠ 0
  master : s.theEventMgrPrimMaster ≠ 0 → Created s s.theEventMgrPrimMaster ∧
    (s.reps s.theEventMgrPrimMaster).lock ≤ 1
  phases : ∀ c, Stage s (s.phase c)

/-- What the representatives in use keep. -/
structure Steady (s t : EventMgrPrimImp.State) : Prop where
  used : s.used ⊆ t.used
  rootRef : t.rootRef = s.rootRef
  chosen : t.theEventMgrPrimMaster = s.theEventMgrPrimMaster
  theRoot : ∀ q ∈ s.used, (t.reps q).theRoot = (s.reps q).theRoot
  master : ∀ q ∈ s.used, (t.reps q).master = (s.reps q).master ∨
    (t.reps q).master = s.theEventMgrPrimMaster
  lock : (t.reps s.theEventMgrPrimMaster).lock = (s.reps s.theEventMgrPrimMaster).lock ∨
    (t.reps s.theEventMgrPrimMaster).lock = 0

section

variable {s t : EventMgrPrimImp.State} {r core repRef mstr : Nat} {p : Phase} {xs ys : List Nat}

theorem Created.steady (ok : Created s r) (k : Steady s t) : Created t r where
  used := k.used ok.used
  theRoot := by rw [k.theRoot r ok.used, ok.theRoot, k.rootRef]

theorem Steady.attached (k : Steady s t) (ok : Created s r)
    (master : (s.reps r).master = s.theEventMgrPrimMaster) :
    (t.reps r).master = t.theEventMgrPrimMaster := by
  obtain same | same := k.master r ok.used
  · rw [same, master, k.chosen]
  · rw [same, k.chosen]

theorem Stage.steady (ok : Stage s p) (k : Steady s t) : Stage t p := by
  cases p with
  | idle => trivial
  | initializing r => exact Eq.trans ok k.chosen.symm
  | copying r mstr => exact ⟨ok.1.trans k.chosen.symm, ok.2.1.steady k, k.attached ok.2.1 ok.2.2⟩
  | adding r | started r =>
      obtain ⟨created, master, free⟩ := ok
      refine ⟨created.steady k, k.attached created master, ?_⟩
      rw [k.chosen]
      obtain same | same := k.lock
      · rw [same, free]
      · exact same

/-- A step behind the choice of the master. -/
theorem Ready.steady (ok : Ready s xs) (k : Steady s t) (chosen : s.theEventMgrPrimMaster ≠ 0)
    (registers : Registers t.heap t.rootRef ys) (created : ∀ a ∈ ys, a ∈ t.used)
    (phases : ∀ c, t.phase c = s.phase c ∨ Stage t (t.phase c)) : Ready t ys := by
  obtain ⟨master, lock⟩ := ok.master chosen
  refine ⟨registers, created, fun _ _ => k.chosen ▸ chosen, fun _ => ?_, fun c => ?_⟩
  · rw [k.chosen]
    refine ⟨master.steady k, ?_⟩
    obtain same | same := k.lock
    · rw [same]
      exact lock
    · rw [same]
      exact Nat.zero_le 1
  · obtain same | moved := phases c
    · rw [same]
      exact (ok.phases c).steady k
    · exact moved

theorem Ready.stage (ok : Ready s xs) (at_ : s.phase core = p) : Stage s p := at_ ▸ ok.phases core

/-- A step that writes to the tables only. -/
theorem steady_tables
    (only : ∀ q, t.reps q = { s.reps q with handlerInfo := (t.reps q).handlerInfo })
    (used : t.used = s.used) (rootRef : t.rootRef = s.rootRef)
    (chosen : t.theEventMgrPrimMaster = s.theEventMgrPrimMaster) : Steady s t := by
  have theRoot : ∀ q, (t.reps q).theRoot = (s.reps q).theRoot := fun q => by rw [only q]
  have master : ∀ q, (t.reps q).master = (s.reps q).master := fun q => by rw [only q]
  have lock : ∀ q, (t.reps q).lock = (s.reps q).lock := fun q => by rw [only q]
  exact ⟨used ▸ List.Subset.refl _, rootRef, chosen, fun q _ => theRoot q,
    fun q _ => .inl (master q), .inl (lock _)⟩

theorem Ready.start (init : EventMgrPrimImp.machine.init s) : Ready s [] := by
  obtain ⟨⟨h, heap⟩, none, idle, _⟩ := init
  refine ⟨?_, nofun, fun c busy => absurd (idle c) busy, fun chosen => absurd none chosen, ?_⟩
  · rw [heap]
    exact registers_init h s.rootRef
  · intro c
    rw [idle c]
    trivial

/-- A core comes to a phase that describes it. -/
theorem phase_update (own : Stage t p) (phase : t.phase = Function.update s.phase core p)
    (c : Nat) :
    t.phase c = s.phase c ∨ Stage t (t.phase c) := by
  rw [phase]
  by_cases mine : c = core
  · right
    rw [mine, Function.update_self]
    exact own
  · left
    exact Function.update_of_ne mine ..

theorem Ready.createRep {fresh : Rep} (ok : Ready s xs)
    (moved : EventMgrPrimImp.step s (.createRep core repRef fresh) = some t) : Ready t xs := by
  simp only [EventMgrPrimImp.step, Option.ite_none_right_eq_some, Option.map_eq_some_iff] at moved
  obtain ⟨⟨_, nonzero, unused⟩, m, allocated, rfl⟩ := moved
  obtain ⟨held, root, _, same⟩ := allocRep_some allocated
  by_cases first : s.theEventMgrPrimMaster = 0
  · have idle : ∀ c, s.phase c = .idle := fun c => by_contra fun busy => ok.chosen c busy first
    rw [chooseMaster, if_pos first]
    refine ⟨ok.registers, fun a member => List.mem_cons_of_mem _ (ok.created a member),
      fun _ _ => nonzero, fun _ => ⟨⟨List.mem_cons_self, root⟩, held.le⟩, fun c => ?_⟩
    show Stage _ (Function.update s.phase core (.initializing repRef) c)
    by_cases mine : c = core
    · rw [mine, Function.update_self]
      rfl
    · rw [Function.update_of_ne mine, idle c]
      trivial
  · rw [chooseMaster, if_neg first]
    have changed : ∀ q ∈ s.used, setMaster m repRef s.theEventMgrPrimMaster q = s.reps q := by
      intro q member
      have other : q ≠ repRef := ne_of_mem_of_not_mem member unused
      exact (spinUnlock_update_of_ne other).trans (same q other)
    have own : setMaster m repRef s.theEventMgrPrimMaster repRef =
        { m repRef with lock := 0, master := s.theEventMgrPrimMaster } :=
      spinUnlock_update_self (Nat.le_of_eq held)
    have k : Steady s { s with
        reps := setMaster m repRef s.theEventMgrPrimMaster
        used := repRef :: s.used
        phase := Function.update s.phase core (.copying repRef s.theEventMgrPrimMaster) } := by
      refine ⟨fun _ member => List.mem_cons_of_mem _ member, rfl, rfl, fun q member => ?_,
        fun q member => .inl ?_, .inl ?_⟩
      · exact (congrArg Rep.theRoot (changed q member) :)
      · exact (congrArg Rep.master (changed q member) :)
      · exact (congrArg Rep.lock (changed _ (ok.master first).1.used) :)
    refine ok.steady k first ok.registers
      (fun a member => List.mem_cons_of_mem _ (ok.created a member)) (phase_update ?_ rfl)
    exact ⟨rfl, ⟨List.mem_cons_self, (congrArg Rep.theRoot own).trans root⟩,
      (congrArg Rep.master own :)⟩

theorem Ready.initMaster (ok : Ready s xs)
    (moved : EventMgrPrimImp.step s (.initMaster core) = some t) : Ready t xs := by
  simp only [EventMgrPrimImp.step] at moved
  split at moved
  · rename_i repRef now
    obtain rfl := Option.some.inj moved
    obtain rfl : repRef = s.theEventMgrPrimMaster := ok.stage now
    have chosen := ok.chosen core (by simp [now])
    obtain ⟨created, lock⟩ := ok.master chosen
    have changed : ∀ q, q ≠ s.theEventMgrPrimMaster →
        EventMgrPrimImp.initMaster s.reps s.theEventMgrPrimMaster q = s.reps q :=
      fun q => spinUnlock_update_of_ne
    have own : EventMgrPrimImp.initMaster s.reps s.theEventMgrPrimMaster s.theEventMgrPrimMaster =
        { s.reps s.theEventMgrPrimMaster with
          lock := 0, master := s.theEventMgrPrimMaster,
          handlerInfo := fun _ => { id := 0, fn := noFuncNum } } :=
      spinUnlock_update_self lock
    have k : Steady s { s with
        reps := EventMgrPrimImp.initMaster s.reps s.theEventMgrPrimMaster
        phase := Function.update s.phase core (.adding s.theEventMgrPrimMaster) } := by
      refine ⟨fun _ member => member, rfl, rfl, fun q _ => ?_, fun q _ => ?_, .inr ?_⟩
      · by_cases itself : q = s.theEventMgrPrimMaster
        · rw [itself]
          exact (congrArg Rep.theRoot own :)
        · exact (congrArg Rep.theRoot (changed q itself) :)
      · by_cases itself : q = s.theEventMgrPrimMaster
        · rw [itself]
          exact .inr (congrArg Rep.master own :)
        · exact .inl (congrArg Rep.master (changed q itself) :)
      · exact (congrArg Rep.lock own :)
    have adding : Stage { s with
        reps := EventMgrPrimImp.initMaster s.reps s.theEventMgrPrimMaster
        phase := Function.update s.phase core (.adding s.theEventMgrPrimMaster) }
          (.adding s.theEventMgrPrimMaster) :=
      ⟨created.steady k, (congrArg Rep.master own :), (congrArg Rep.lock own :)⟩
    exact ok.steady k chosen ok.registers ok.created (phase_update adding rfl)
  · cases moved

theorem Ready.copyHandlers (ok : Ready s xs)
    (moved : EventMgrPrimImp.step s (.copyHandlers core) = some t) : Ready t xs := by
  simp only [EventMgrPrimImp.step] at moved
  split at moved
  · rename_i repRef mstr now
    obtain ⟨m, copied, rfl⟩ := Option.map_eq_some_iff.mp moved
    obtain ⟨free, _, rfl⟩ := copyHandlers_some copied
    obtain ⟨rfl, created, master⟩ := ok.stage now
    have chosen := ok.chosen core (by simp [now])
    have only : ∀ q, Function.update s.reps repRef { s.reps repRef with
        handlerInfo := fun i => { (s.reps repRef).handlerInfo i with
          id := ((s.reps s.theEventMgrPrimMaster).handlerInfo i).id } } q =
        { s.reps q with handlerInfo := (Function.update s.reps repRef { s.reps repRef with
          handlerInfo := fun i => { (s.reps repRef).handlerInfo i with
            id := ((s.reps s.theEventMgrPrimMaster).handlerInfo i).id } } q).handlerInfo } := by
      intro q
      by_cases here : q = repRef <;> simp [here]
    generalize Function.update s.reps repRef _ = m at only
    have k : Steady s { s with
        reps := m
        phase := Function.update s.phase core (.adding repRef) } :=
      steady_tables only rfl rfl rfl
    have adding : Stage s (.adding repRef) := ⟨created, master, free⟩
    exact ok.steady k chosen ok.registers ok.created (phase_update (adding.steady k) rfl)
  · cases moved

theorem Ready.addRepOn {node : Nat} (ok : Ready s xs)
    (moved : EventMgrPrimImp.step s (.addRepOn core node) = some t) : ∃ ys, Ready t ys := by
  simp only [EventMgrPrimImp.step] at moved
  split at moved
  · rename_i repRef now
    simp only [Option.ite_none_right_eq_some, Option.map_eq_some_iff] at moved
    obtain ⟨⟨nonzero, unused⟩, heap, put, rfl⟩ := moved
    rw [addRepOn_eq ok.registers.unlocked, Option.some.injEq] at put
    obtain rfl := put
    have outside : node ∉ xs := fun member => unused (ok.created node member)
    have k : Steady s { s with
        heap := added s.heap node s.rootRef core repRef
        used := node :: s.used
        phase := Function.update s.phase core (.started repRef) } :=
      ⟨fun _ member => List.mem_cons_of_mem _ member, rfl, rfl, fun _ _ => rfl, fun _ _ => .inl rfl,
        .inl rfl⟩
    refine ⟨node :: xs, ok.steady k (ok.chosen core (by simp [now]))
      (ok.registers.added nonzero outside) (fun a member => ?_) ?_⟩
    · obtain rfl | old := List.mem_cons.mp member
      · exact List.mem_cons_self
      · exact List.mem_cons_of_mem _ (ok.created a old)
    · exact phase_update (p := .started repRef) ((ok.stage now).steady k) rfl
  · cases moved

theorem Ready.length_le (ok : Ready s xs) : xs.length ≤ s.used.length :=
  ok.registers.length_le ok.created

end

/-! ### Registration -/

/-- The event is in the tables and has no handler. -/
def State.Free (s : State) (eventNo : Nat) : Prop :=
  ∃ inRange : eventNo < maxEvents,
    ((s.mgr.reps s.mgr.theEventMgrPrimMaster).handlerInfo ⟨eventNo, inRange⟩).id = 0

/-- The tables after `lockedRegisterHandler`. -/
def registered (s : EventMgrPrimImp.State) (xs : List Nat) (e : Fin maxEvents)
    (info : HandlerInfo) : Reps :=
  broadcast s.reps (s.theEventMgrPrimMaster :: reps s.heap xs) e info

/-- The tables after `lockedRegisterHandler` and the attempt to undo it. -/
def undone (s : EventMgrPrimImp.State) (xs : List Nat) (e : Fin maxEvents) (info : HandlerInfo) :
    Reps :=
  broadcast (registered s xs e info) (reps s.heap xs) e ⟨0, noFuncNum⟩

section

variable {s t : State} {core self eventNo h : Nat} {info : HandlerInfo} {isrc : Src} {mapped : Bool}
variable {xs : List Nat} {vfTbl : Nat → Nat} {rc : EBBRC}

theorem Ready.spinLock (ok : Ready s.mgr xs) (at_ : s.mgr.phase core = .started self) :
    EventMgrPrimImp.spinLock s.mgr.reps (s.mgr.reps self).master =
      some (s.mgr.reps.setLock s.mgr.theEventMgrPrimMaster 1) := by
  obtain ⟨_, master, free⟩ := ok.stage at_
  rw [EventMgrPrimImp.spinLock, master, if_pos free]

theorem Ready.unregister {m : Reps} (ok : Ready s.mgr xs) (inRange : eventNo < maxEvents) :
    Register.unregister s.mgr m s.mgr.rootRef eventNo =
      some (broadcast m (reps s.mgr.heap xs) ⟨eventNo, inRange⟩ ⟨0, noFuncNum⟩) := by
  rw [Register.unregister, dif_pos inRange]
  exact lockedReplicateHandler_eq ok.registers (Nat.lt_succ_of_le ok.length_le)

/-- A call for an event that is out of range or has a handler only enables the vector. -/
theorem Ready.registerHandler_taken (ok : Ready s.mgr xs) (at_ : s.mgr.phase core = .started self)
    (taken : ¬ s.Free eventNo) :
    s.registerHandler vfTbl core self eventNo info isrc mapped =
      some (EBBRC.badParameter, { s with pic := s.pic.enable core eventNo }) := by
  obtain ⟨_, master, free⟩ := ok.stage at_
  have refused : ∀ inRange : eventNo < maxEvents,
      ((s.mgr.reps.setLock s.mgr.theEventMgrPrimMaster 1
        s.mgr.theEventMgrPrimMaster).handlerInfo ⟨eventNo, inRange⟩).id ≠ 0 := by
    intro inRange
    rw [setLock_handlerInfo]
    exact fun none => taken ⟨inRange, none⟩
  rw [State.registerHandler, ok.spinLock at_]
  simp only [Option.bind_eq_bind, Option.bind_some, setLock_master, master,
    lockedRegisterHandler_taken refused, spinUnlock_setLock free]
  rfl

/-- A call for a free event changes the tables, and then the tables of the pic. -/
theorem Ready.registerHandler_free (ok : Ready s.mgr xs) (at_ : s.mgr.phase core = .started self)
    (inRange : eventNo < maxEvents)
    (free : ((s.mgr.reps s.mgr.theEventMgrPrimMaster).handlerInfo ⟨eventNo, inRange⟩).id = 0) :
    s.registerHandler vfTbl core self eventNo info isrc mapped =
      (s.pic.mapvec isrc eventNo (vfTbl eventNo) mapped).map fun (mapvec, pic) =>
        if mapvec < 0 then
          (EBBRC.badParameter,
            { mgr := { s.mgr with reps := undone s.mgr xs ⟨eventNo, inRange⟩ info }
              pic := pic.enable core eventNo })
        else
          (EBBRC.ok,
            { mgr := { s.mgr with reps := registered s.mgr xs ⟨eventNo, inRange⟩ info }
              pic := pic.enable core eventNo }) := by
  obtain ⟨created, master, unlocked⟩ := ok.stage at_
  have chosen := ok.chosen core (by simp [at_])
  have enough : xs.length < s.mgr.used.length + 1 := Nat.lt_succ_of_le ok.length_le
  have rooted : (s.mgr.reps.setLock s.mgr.theEventMgrPrimMaster 1
      s.mgr.theEventMgrPrimMaster).theRoot = s.mgr.rootRef := by
    rw [setLock_theRoot]
    exact (ok.master chosen).1.theRoot
  rw [State.registerHandler, ok.spinLock at_]
  simp only [Option.bind_eq_bind, Option.bind_some, setLock_master, master,
    lockedRegisterHandler_free ok.registers enough rooted inRange (by simpa using free),
    broadcast_setLock, EBBRC.success_ok, if_true]
  cases s.pic.mapvec isrc eventNo (vfTbl eventNo) mapped with
  | none => rfl
  | some called =>
      obtain ⟨mapvec, pic⟩ := called
      by_cases failed : mapvec < 0
      · have undo := ok.unregister (m := (registered s.mgr xs ⟨eventNo, inRange⟩ info).setLock
          s.mgr.theEventMgrPrimMaster 1) inRange
        have root : ((registered s.mgr xs ⟨eventNo, inRange⟩ info).setLock
            s.mgr.theEventMgrPrimMaster 1 self).theRoot = s.mgr.rootRef := by
          rw [setLock_theRoot, registered, broadcast_theRoot, created.theRoot]
        have unlock : spinUnlock ((undone s.mgr xs ⟨eventNo, inRange⟩ info).setLock
            s.mgr.theEventMgrPrimMaster 1) s.mgr.theEventMgrPrimMaster =
              undone s.mgr xs ⟨eventNo, inRange⟩ info :=
          spinUnlock_setLock (by simpa [undone, registered] using unlocked)
        simp only [Option.bind_some, Option.map_some, if_pos failed]
        rw [← registered, root, undo, broadcast_setLock, ← undone]
        simp only [Option.bind_some, unlock]
      · have unlock : spinUnlock ((registered s.mgr xs ⟨eventNo, inRange⟩ info).setLock
            s.mgr.theEventMgrPrimMaster 1) s.mgr.theEventMgrPrimMaster =
              registered s.mgr xs ⟨eventNo, inRange⟩ info :=
          spinUnlock_setLock (by simpa [registered] using unlocked)
        simp only [Option.bind_some, Option.map_some, if_neg failed]
        rw [← registered, unlock]

/-- What a call of `EventMgrPrim_registerHandler` returns, and the state behind it. -/
inductive Called (vfTbl : Nat → Nat) (s : State) (xs : List Nat) (core eventNo : Nat)
    (info : HandlerInfo) (isrc : Src) (mapped : Bool) : EBBRC → State → Prop
  | taken (taken : ¬ s.Free eventNo) :
      Called vfTbl s xs core eventNo info isrc mapped EBBRC.badParameter
        { s with pic := s.pic.enable core eventNo }
  | unallocated (inRange : eventNo < maxEvents) (free : s.Free eventNo)
      (null : s.pic.gvecs eventNo = 0) :
      Called vfTbl s xs core eventNo info isrc mapped EBBRC.badParameter
        { mgr := { s.mgr with reps := undone s.mgr xs ⟨eventNo, inRange⟩ info }
          pic := (s.pic.access (.readGvec eventNo)).enable core eventNo }
  | unmapped (inRange : eventNo < maxEvents) (free : s.Free eventNo)
      (nonzero : s.pic.gvecs eventNo ≠ 0) (failed : mapped = false) (as : List Pic.Calls.Access)
      (loop : ∀ a ∈ as, ∃ id, a = .writeLvec id eventNo) :
      Called vfTbl s xs core eventNo info isrc mapped EBBRC.badParameter
        { mgr := { s.mgr with reps := undone s.mgr xs ⟨eventNo, inRange⟩ info }
          pic := (s.pic.replaced isrc eventNo (vfTbl eventNo) mapped as).enable core eventNo }
  | mapped (inRange : eventNo < maxEvents) (free : s.Free eventNo)
      (nonzero : s.pic.gvecs eventNo ≠ 0) (done : mapped = true) (as : List Pic.Calls.Access)
      (loop : ∀ a ∈ as, ∃ id, a = .writeLvec id eventNo) :
      Called vfTbl s xs core eventNo info isrc mapped EBBRC.ok
        { mgr := { s.mgr with reps := registered s.mgr xs ⟨eventNo, inRange⟩ info }
          pic := (s.pic.replaced isrc eventNo (vfTbl eventNo) mapped as).enable core eventNo }

/-- The two layers, between two calls. -/
structure Inv (s : State) (xs : List Nat) : Prop where
  ready : Ready s.mgr xs
  up : ∀ id ≤ s.pic.lastid, s.pic.lcore id ≠ 0
  inside : s.Inside

/-- A call that gets its turn returns. -/
theorem Inv.called (inv : Inv s xs) (vfTbl : Nat → Nat)
    (at_ : s.mgr.phase core = .started self) :
    ∃ rc t, s.registerHandler vfTbl core self eventNo info isrc mapped = some (rc, t) ∧
      Called vfTbl s xs core eventNo info isrc mapped rc t := by
  by_cases free : s.Free eventNo
  · obtain ⟨inRange, none⟩ := free
    rw [inv.ready.registerHandler_free at_ inRange none]
    have returns : (s.pic.mapvec isrc eventNo (vfTbl eventNo) mapped).isSome :=
      Pic.Calls.mapvec_isSome inv.up
    obtain ⟨⟨mapvec, pic⟩, ran⟩ := Option.isSome_iff_exists.mp returns
    rw [ran]
    obtain ⟨null, rfl, rfl⟩ | ⟨nonzero, rfl, as, loop, rfl⟩ := Pic.Calls.mapvec_some ran
    · exact ⟨_, _, rfl, .unallocated inRange ⟨inRange, none⟩ null⟩
    · cases mapped with
      | false => exact ⟨_, _, rfl, .unmapped inRange ⟨inRange, none⟩ nonzero rfl as loop⟩
      | true => exact ⟨_, _, rfl, .mapped inRange ⟨inRange, none⟩ nonzero rfl as loop⟩
  · exact ⟨_, _, inv.ready.registerHandler_taken at_ free, .taken free⟩

/-- A call accesses the entries of its vector, the flag last. It replaces something when the
event is free and the vector is not null. -/
theorem Called.accesses (called : Called vfTbl s xs core eventNo info isrc mapped rc t) :
    ∃ new, t.pic.accesses = .writeEnabled core eventNo :: new ++ s.pic.accesses ∧
      (∀ a ∈ new, a.vec = eventNo) ∧
        ((∃ a ∈ new, a.replaces) ↔ s.Free eventNo ∧ s.pic.gvecs eventNo ≠ 0) := by
  cases called with
  | taken taken =>
      refine ⟨[], rfl, nofun, iff_of_false ?_ fun both => taken both.1⟩
      exact nofun
  | unallocated _ _ null =>
      refine ⟨[.readGvec eventNo], rfl, fun a member => ?_,
        iff_of_false ?_ fun both => both.2 null⟩
      · rw [List.mem_singleton.mp member]
        rfl
      · rintro ⟨a, member, replaces⟩
        rw [List.mem_singleton.mp member] at replaces
        cases replaces
  | unmapped _ free nonzero _ as loop | mapped _ free nonzero _ as loop =>
      refine ⟨.mapFd eventNo :: (as ++ [.writeGvec eventNo, .readGvec eventNo]), ?_, ?_,
        iff_of_true ⟨_, List.mem_cons_self, rfl⟩ ⟨free, nonzero⟩⟩
      · simp [Pic.Calls.State.enable, Pic.Calls.State.setEnabled, Pic.Calls.State.access,
          Pic.Calls.State.replaced]
      · simp only [List.forall_mem_cons, List.forall_mem_append]
        refine ⟨rfl, fun a member => ?_, rfl, rfl, nofun⟩
        obtain ⟨id, rfl⟩ := loop a member
        rfl

/-- A step that writes to the tables only. -/
theorem Ready.tables {m : Reps} (ok : Ready s.mgr xs) (at_ : s.mgr.phase core = .started self)
    (only : ∀ q, m q = { s.mgr.reps q with handlerInfo := (m q).handlerInfo }) :
    Ready { s.mgr with reps := m } xs := by
  have k : Steady s.mgr { s.mgr with reps := m } := steady_tables only rfl rfl rfl
  exact ok.steady k (ok.chosen core (by simp [at_])) ok.registers ok.created fun _ => .inl rfl

theorem undone_only (s : EventMgrPrimImp.State) (xs : List Nat) (e : Fin maxEvents)
    (info : HandlerInfo) (q : Nat) : undone s xs e info q =
      { s.reps q with handlerInfo := (undone s xs e info q).handlerInfo } := by
  rw [undone, broadcast_only, registered, broadcast_only s.reps]

theorem Called.ready (called : Called vfTbl s xs core eventNo info isrc mapped rc t)
    (ok : Ready s.mgr xs) (at_ : s.mgr.phase core = .started self) : Ready t.mgr xs := by
  cases called with
  | taken => exact ok
  | unallocated | unmapped => exact ok.tables at_ (undone_only _ _ _ _)
  | mapped => exact ok.tables at_ (broadcast_only _ _ _ _)

/-- The cores that are up. -/
def SameCores (p q : Pic.Calls.State) : Prop := q.lcore = p.lcore ∧ q.lastid = p.lastid

theorem Called.sameCores (called : Called vfTbl s xs core eventNo info isrc mapped rc t) :
    SameCores s.pic t.pic := by
  cases called <;> exact ⟨rfl, rfl⟩

theorem Inv.sameCores (inv : Inv s xs) (ready : Ready t.mgr xs) (same : SameCores s.pic t.pic)
    (inside : t.Inside) : Inv t xs := by
  refine ⟨ready, fun id up => ?_, inside⟩
  rw [same.2] at up
  rw [same.1]
  exact inv.up id up

theorem checked_some {t' : State} (ran : t.checked = some t') : t' = t ∧ t.Inside := by
  obtain ⟨inside, same⟩ := Option.ite_none_right_eq_some.mp ran
  exact ⟨(Option.some.inj same).symm, inside⟩

theorem sameCores_vecon {pic : Pic.Calls.State} (vec : Nat) : SameCores pic (pic.vecon vec).2 := by
  rw [Pic.Calls.State.vecon]
  split
  · exact ⟨rfl, rfl⟩
  · exact ⟨rfl, rfl⟩

theorem sameCores_vecoff {pic : Pic.Calls.State} (vec : Nat) :
    SameCores pic (pic.vecoff vec).2 := by
  rw [Pic.Calls.State.vecoff]
  split
  · exact ⟨rfl, rfl⟩
  · exact ⟨rfl, rfl⟩

theorem allocvec_same (pic : Pic.Calls.State) :
    SameCores pic pic.allocvec.2.2 ∧ pic.allocvec.2.2.accesses = pic.accesses := by
  rw [Pic.Calls.State.allocvec]
  split
  · exact ⟨⟨rfl, rfl⟩, rfl⟩
  · exact ⟨⟨rfl, rfl⟩, rfl⟩

theorem Inv.start (init : (machine vfTbl h).init s) : Inv s [] := by
  obtain ⟨mgr, lcore, nonzero, pic⟩ := init
  refine ⟨Ready.start mgr, fun id first => ?_, ?_⟩
  · rw [pic] at first ⊢
    obtain rfl := Nat.le_zero.mp first
    exact nonzero
  · rw [State.Inside, pic]
    exact nofun

theorem Inv.init {a : EventMgrPrimImp.Action} (inv : Inv s xs) (moved : s.init a = some t)
    (ready : ∀ mgr, EventMgrPrimImp.step s.mgr a = some mgr → ∃ ys, Ready mgr ys) :
    ∃ ys, Inv t ys := by
  obtain ⟨mgr, ran, rfl⟩ := Option.map_eq_some_iff.mp moved
  obtain ⟨ys, ok⟩ := ready mgr ran
  exact ⟨ys, ok, inv.up, inv.inside⟩

theorem Inv.step {a : Action} (inv : Inv s xs) (moved : step vfTbl s a = some t) :
    ∃ ys, Inv t ys := by
  cases a with
  | createRep core repRef fresh =>
      obtain ⟨_, moved⟩ := Option.ite_none_right_eq_some.mp moved
      exact inv.init moved fun mgr ran => ⟨xs, inv.ready.createRep ran⟩
  | initMaster core => exact inv.init moved fun mgr ran => ⟨xs, inv.ready.initMaster ran⟩
  | copyHandlers core => exact inv.init moved fun mgr ran => ⟨xs, inv.ready.copyHandlers ran⟩
  | addRepOn core node => exact inv.init moved fun mgr ran => inv.ready.addRepOn ran
  | registerHandler core eventNo info isrc mapped =>
      simp only [Register.step] at moved
      split at moved
      · rename_i self at_
        obtain ⟨rc, t', ran, called⟩ := inv.called vfTbl at_
        rw [ran, Option.bind_some] at moved
        obtain ⟨rfl, inside⟩ := checked_some moved
        exact ⟨xs, inv.sameCores (called.ready inv.ready at_) called.sameCores inside⟩
      · cases moved
  | eventEnable core eventNo =>
      simp only [Register.step] at moved
      split at moved
      · obtain ⟨rfl, inside⟩ := checked_some moved
        exact ⟨xs, inv.sameCores inv.ready (sameCores_vecon eventNo) inside⟩
      · cases moved
  | eventDisable core eventNo =>
      simp only [Register.step] at moved
      split at moved
      · obtain ⟨rfl, inside⟩ := checked_some moved
        exact ⟨xs, inv.sameCores inv.ready (sameCores_vecoff eventNo) inside⟩
      · cases moved
  | allocEventNo core =>
      simp only [Register.step] at moved
      split at moved
      · obtain rfl := Option.some.inj moved
        obtain ⟨same, accesses⟩ := allocvec_same s.pic
        refine ⟨xs, inv.sameCores inv.ready same ?_⟩
        rw [State.Inside]
        exact accesses ▸ inv.inside
      · cases moved
  | registerIPIHandler core info =>
      simp only [Register.step] at moved
      split at moved
      · rename_i self at_
        obtain rfl := Option.some.inj moved
        refine ⟨xs, inv.sameCores (inv.ready.tables at_ fun q => ?_) ⟨rfl, rfl⟩ inv.inside⟩
        by_cases here : q = self <;>
          simp [EventMgrPrimImp.registerIPIHandler, Reps.setHandler, here]
      · cases moved
  | enable core vec =>
      obtain ⟨_, moved⟩ := Option.ite_none_right_eq_some.mp moved
      obtain ⟨rfl, inside⟩ := checked_some moved
      exact ⟨xs, inv.sameCores inv.ready ⟨rfl, rfl⟩ inside⟩
  | disable core vec =>
      obtain ⟨_, moved⟩ := Option.ite_none_right_eq_some.mp moved
      obtain ⟨rfl, inside⟩ := checked_some moved
      refine ⟨xs, inv.sameCores inv.ready ?_ inside⟩
      simp only [Pic.Calls.State.disable]
      split
      · exact ⟨rfl, rfl⟩
      · exact ⟨rfl, rfl⟩
  | startCore lcore =>
      obtain ⟨⟨_, nonzero⟩, moved⟩ := Option.ite_none_right_eq_some.mp moved
      obtain rfl := Option.some.inj moved
      refine ⟨xs, inv.ready, fun id up => ?_, inv.inside⟩
      show Function.update s.pic.lcore (s.pic.lastid + 1) lcore id ≠ 0
      obtain old | rfl := Nat.le_or_eq_of_le_succ up
      · rw [Function.update_of_ne (Nat.ne_of_lt (Nat.lt_succ_of_le old))]
        exact inv.up id old
      · rw [Function.update_self]
        exact nonzero
  | behind vec h =>
      obtain ⟨_, moved⟩ := Option.ite_none_right_eq_some.mp moved
      obtain rfl := Option.some.inj moved
      exact ⟨xs, inv.sameCores inv.ready ⟨rfl, rfl⟩ inv.inside⟩

end

end EBBLib.EventMgrPrimImp.Register
