import EBBLib.Library.Transition
import EBBLib.Pic.CoreId
import Mathlib.Logic.Function.Basic

/-!
# Interrupt vectors

`pic.gvecs` holds the handlers that are mapped on all cores, and each core dispatches
from `lvecs` of its own. A core copies `pic.gvecs` when it starts, and `lrt_pic_mapvec`
writes the vectors of all cores that it knows of; both do so under the lock of the pic.

`lpics` has `LRT_PIC_MAX_PICS` entries, and the assertion at start-up lets one id through that
is behind them. A store to an entry that does not exist changes none of those that do, and a
read of it has no result.
-/

namespace EBBLib.Pic.Vectors

open EBBLib.Trans (maxPics)

/-- `NUM_MAPPABLE_VEC`. -/
def numMappableVec : Nat := 32

/-- `NUM_VEC`. -/
def numVec : Nat := numMappableVec + 2

/-- `RST_VEC`. -/
def rstVec : Nat := numMappableVec + 1

/-- The mark of a vector that is allocated and has no handler. -/
def unmapped : Nat := 2 ^ 64 - 1

/-- A vector's entry is a handler, and neither `NULL` nor the mark. -/
def IsHandler (h : Nat) : Prop := h ≠ 0 ∧ h ≠ unmapped

/-- What a call has returned. -/
inductive Ret where
  | allocvec (rc : Int) (vec : Option Nat)
  | mapvec (rc : Int)
deriving DecidableEq, Repr

/-- Where a started core is in a call to the pic. -/
inductive Call where
  | idle (last : Option Ret)
  | allocLock
  | allocLoop (i rtn : Nat)
  | mapLock (vec h : Nat)
  | mapTest (vec h : Nat)
  /-- Before the test of the loop, which reads `lrt_pic_lastid`. -/
  | mapNext (vec h i : Nat)
  | mapWrite (vec h i : Nat)
  /-- The assertion on the `lcore` of core `i` has failed. -/
  | mapFailed (vec h i : Nat)
  | mapSource
  | unlock (ret : Ret)
deriving DecidableEq, Repr

inductive Core where
  | boot (b : Boot)
  | setLcore (myid : Nat)
  | copyLock (myid : Nat)
  | copy (myid i : Nat)
  | copyUnlock (myid : Nat)
  | assertLcore (myid : Nat)
  | run (myid : Nat) (call : Call)
  /-- The assertion on its own `lcore` has failed. -/
  | crashed (myid : Nat)
deriving DecidableEq, Repr

namespace Core

def toBoot : Core → Boot
  | boot b => b
  | setLcore myid => .assigned myid
  | copyLock myid => .assigned myid
  | copy myid _ => .assigned myid
  | copyUnlock myid => .assigned myid
  | assertLcore myid => .assigned myid
  | run myid _ => .assigned myid
  | crashed myid => .assigned myid

/-- The core is between `lock` and `unlock`. -/
def holds : Core → Bool
  | copy .. => true
  | copyUnlock _ => true
  | run _ (.allocLoop ..) => true
  | run _ (.mapTest ..) => true
  | run _ (.mapNext ..) => true
  | run _ (.mapWrite ..) => true
  | run _ (.mapFailed ..) => true
  | run _ .mapSource => true
  | run _ (.unlock _) => true
  | _ => false

/-- The core has completed its copy of `pic.gvecs`. -/
def Copied (id : Nat) : Core → Prop
  | copyUnlock myid => myid = id
  | assertLcore myid => myid = id
  | run myid _ => myid = id
  | _ => False

/-- An assertion has failed on the core. -/
def isFailed : Core → Bool
  | boot b => b.isFailed
  | crashed _ => true
  | run _ (.mapFailed ..) => true
  | _ => false

end Core

/-- The shared variables and the cores. -/
structure State where
  ids : Ids
  lock : Bool
  free : Nat
  gvecs : Nat → Nat
  lcore : Fin maxPics → Nat
  lvecs : Fin maxPics → Nat → Nat
  cores : List Core

/-- A call that a started core makes. -/
inductive Request where
  | allocvec
  | mapvec (vec h : Nat)
deriving DecidableEq, Repr

inductive Action where
  /-- A core moves. The system provides its logical core, and the outcome of
  `lrt_pic_unix_locked_map`. -/
  | move (core lcore : Nat) (mapped : Bool)
  | call (core : Nat) (request : Request)
  | addCore (core : Nat)
deriving DecidableEq, Repr

namespace State

variable (s : State)

/-- A core gets somewhere. -/
def goto (i : Nat) (c : Core) : State := { s with cores := s.cores.set i c }

/-- `lpics[id].lvecs[vec] = h`. -/
def setLvec (id vec h : Nat) : State :=
  { s with lvecs := fun p v => if p.val = id ∧ v = vec then h else s.lvecs p v }

/-- `lpics[id].lcore = lcore`. -/
def setLcore (id lcore : Nat) : State :=
  { s with lcore := fun p => if p.val = id then lcore else s.lcore p }

/-- `lpics[id].lvecs[vec]`. -/
def lvec (id vec : Nat) : Option Nat :=
  if inside : id < maxPics then some (s.lvecs ⟨id, inside⟩ vec) else none

/-- `lpics[id].lcore`. -/
def lcoreOf (id : Nat) : Option Nat :=
  if inside : id < maxPics then some (s.lcore ⟨id, inside⟩) else none

/-- `pic.gvecs[vec] = h`. -/
def setGvec (vec h : Nat) : State := { s with gvecs := Function.update s.gvecs vec h }

/-- The next step of a call on core `myid`. -/
def moveCall (i myid : Nat) (mapped : Bool) : Call → Option State
  | .idle _ => none
  | .allocLock =>
      if s.lock then none
      else some ({ s with lock := true }.goto i (.run myid (.allocLoop 0 s.free)))
  | .allocLoop k rtn =>
      if k < numMappableVec then
        if s.gvecs rtn = 0 then
          some ({ s.setGvec rtn unmapped with
              free := if s.free + 1 ≥ numMappableVec then 0 else s.free + 1 }.goto i
            (.run myid (.unlock (.allocvec 1 (some rtn)))))
        else
          some (s.goto i (.run myid (.allocLoop (k + 1)
            (if rtn + 1 ≥ numMappableVec then 0 else rtn + 1))))
      else some (s.goto i (.run myid (.unlock (.allocvec (-1) none))))
  | .mapLock vec h =>
      if s.lock then none else some ({ s with lock := true }.goto i (.run myid (.mapTest vec h)))
  | .mapTest vec h =>
      if s.gvecs vec = 0 then some (s.goto i (.run myid (.unlock (.mapvec (-1)))))
      else some ((s.setGvec vec h).goto i (.run myid (.mapNext vec h 0)))
  | .mapNext vec h k =>
      some (s.goto i (.run myid (if k ≤ s.ids.lastid then .mapWrite vec h k else .mapSource)))
  | .mapWrite vec h k =>
      (s.lcoreOf k).map fun lcore =>
        if lcore = 0 then s.goto i (.run myid (.mapFailed vec h k))
        else (s.setLvec k vec h).goto i (.run myid (.mapNext vec h (k + 1)))
  | .mapFailed .. => none
  | .mapSource => some (s.goto i (.run myid (.unlock (.mapvec (if mapped then 1 else -1)))))
  | .unlock ret => some ({ s with lock := false }.goto i (.run myid (.idle (some ret))))

/-- The next step of a core. Taking the lock is one step, when it is free. -/
def moveCore (i lcore : Nat) (mapped : Bool) : Core → Option State
  | .boot (.assigned myid) => some (s.goto i (.setLcore myid))
  | .boot b => (b.step s.ids).map fun (ids, b) => { s with ids }.goto i (.boot b)
  | .setLcore myid =>
      some ((s.setLcore myid lcore).goto i (.copyLock myid))
  | .copyLock myid => if s.lock then none else some ({ s with lock := true }.goto i (.copy myid 0))
  | .copy myid k =>
      if k < numMappableVec then some ((s.setLvec myid k (s.gvecs k)).goto i (.copy myid (k + 1)))
      else some ((s.setLvec myid rstVec (s.gvecs rstVec)).goto i (.copyUnlock myid))
  | .copyUnlock myid => some ({ s with lock := false }.goto i (.assertLcore myid))
  | .assertLcore myid =>
      (s.lcoreOf myid).map fun lcore =>
        s.goto i (if lcore = 0 then .crashed myid else .run myid (.idle none))
  | .run myid call => s.moveCall i myid mapped call
  | .crashed _ => none

/-- A failed assertion ends the process. -/
def step : Action → Option State
  | .move i lcore mapped =>
      if s.cores.any Core.isFailed then none else s.cores[i]?.bind (s.moveCore i lcore mapped)
  | .call i request =>
      if s.cores.any Core.isFailed then none
      else match s.cores[i]? with
        | some (.run myid (.idle _)) =>
            match request with
            | .allocvec => some (s.goto i (.run myid .allocLock))
            -- The entries of the vectors end at `NUM_VEC`.
            | .mapvec vec h =>
                if vec < numVec then some (s.goto i (.run myid (.mapLock vec h))) else none
        | _ => none
  | .addCore i =>
      if s.cores.any Core.isFailed then none
      else match s.cores[i]? with
        | some (.run _ (.idle _)) => some { s with cores := s.cores ++ [.boot .enter] }
        | _ => none

end State

/-- The first core, before it takes its id, with reset handler `h`. -/
def start (h : Nat) : State where
  ids := ⟨0, 0⟩
  lock := false
  free := 0
  gvecs := Function.update (fun _ => 0) rstVec h
  lcore _ := 0
  lvecs p vec := if p.val = 0 ∧ vec = rstVec then h else 0
  cores := [.boot .enter]

def machine (h : Nat) : Machine State Action where
  init s := s = start h
  step := State.step

/-- The vectors of a core that has copied them hold the handlers that are mapped. -/
def Agree (s : State) : Prop :=
  ∀ c ∈ s.cores, ∀ id, c.Copied id → ∀ v, v < numMappableVec → IsHandler (s.gvecs v) →
    s.lvec id v = some (s.gvecs v)

/-! ### The invariant -/

/-- The core is in the loop of `lrt_pic_mapvec`, and core `k` is the next one to write. -/
def Core.Mapping (v k : Nat) : Core → Prop
  | run _ (.mapNext vec _ i) => vec = v ∧ i = k
  | run _ (.mapWrite vec _ i) => vec = v ∧ i = k
  | run _ (.mapFailed vec _ i) => vec = v ∧ i = k
  | _ => False

/-- The entry of core `id`, if there is one, holds the vector that is mapped. -/
def Current (gvecs : Nat → Nat) (lvecs : Fin maxPics → Nat → Nat) (id v : Nat) : Prop :=
  ∀ inside : id < maxPics, lvecs ⟨id, inside⟩ v = gvecs v

/-- What holds in the middle of the two loops. -/
def Core.Fine (gvecs : Nat → Nat) (lvecs : Fin maxPics → Nat → Nat) : Core → Prop
  | copy myid i => ∀ v, v < i → Current gvecs lvecs myid v
  | run _ (.mapNext vec h _) => gvecs vec = h
  | run _ (.mapWrite vec h _) => gvecs vec = h
  | _ => True

/-- A core's vector is the one that is mapped, or is still to be written. -/
def Covered (s : State) (id v : Nat) : Prop :=
  (IsHandler (s.gvecs v) → Current s.gvecs s.lvecs id v) ∨
    ∃ c ∈ s.cores, ∃ k, c.Mapping v k ∧ k ≤ id

structure Inv (s : State) : Prop where
  assigned : Assigned s.ids (s.cores.map Core.toBoot)
  locked : s.cores.countP Core.holds = if s.lock then 1 else 0
  fine : ∀ c ∈ s.cores, c.Fine s.gvecs s.lvecs
  covered : ∀ c ∈ s.cores, ∀ id, c.Copied id → ∀ v, v < numMappableVec → Covered s id v

section

variable {s t : State} {i h lcore : Nat} {mapped : Bool} {c c' : Core}

theorem Core.Mapping.holds {v k : Nat} (mapping : c.Mapping v k) : c.holds := by
  cases c with
  | run myid call => cases call <;> simp_all [Mapping, Core.holds]
  | boot | setLcore | copyLock | copy | copyUnlock | assertLcore | crashed => exact mapping.elim

theorem Core.Copied.toBoot {id : Nat} (copied : c.Copied id) : c.toBoot = .assigned id := by
  cases c <;> simp_all [Copied, Core.toBoot]

/-- Only one core holds the lock. -/
theorem Inv.holder (inv : Inv s) (here : s.cores[i]? = some c) (holds : c.holds) {d : Core}
    (member : d ∈ s.cores) (holds' : d.holds) : d = c := by
  apply Pool.eq_of_countP_le_one here holds _ member holds'
  rw [inv.locked]
  split <;> omega

/-- `lrt_pic_lastid` has reached the cores that have copied the vectors. -/
theorem Inv.known (inv : Inv s) (member : c ∈ s.cores) {id : Nat} (copied : c.Copied id) :
    id ≤ s.ids.lastid := by
  have boot := List.mem_map_of_mem (f := Core.toBoot) member
  rw [copied.toBoot] at boot
  exact (inv.assigned.knows _ boot).2

theorem inv_start : Inv (start h) := by
  constructor
  · exact assigned_start
  · simp [start, Core.holds]
  · simp [start, Core.Fine]
  · simp [start, Core.Copied]

/-- A core that goes on with its id. -/
theorem Inv.toBoot (inv : Inv s) (here : s.cores[i]? = some c) (same : c'.toBoot = c.toBoot) :
    Assigned s.ids ((s.cores.set i c').map Core.toBoot) := by
  have boot : (s.cores.map Core.toBoot)[i]? = some c.toBoot := by
    rw [List.getElem?_map, here, Option.map_some]
  rw [List.map_set, same, Pool.set_self boot]
  exact inv.assigned

theorem Inv.locked_set (inv : Inv s) (c' : Core) (here : s.cores[i]? = some c) :
    (s.cores.set i c').countP Core.holds + (if c.holds then 1 else 0) =
      (if s.lock then 1 else 0) + if c'.holds then 1 else 0 := by
  rw [← inv.locked]
  exact Pool.countP_set here

/-- What is covered stays covered when vectors only get closer to the ones that are mapped,
and the core that moves does not give up a vector. -/
theorem Covered.set {id v : Nat} (covered : Covered s id v) (here : s.cores[i]? = some c)
    (cores : t.cores = s.cores.set i c')
    (settled : (IsHandler (s.gvecs v) → Current s.gvecs s.lvecs id v) →
      IsHandler (t.gvecs v) → Current t.gvecs t.lvecs id v)
    (mapping : ∀ k, c.Mapping v k → k ≤ id → Covered t id v) : Covered t id v := by
  obtain agrees | ⟨d, member, k, maps, le⟩ := covered
  · exact .inl (settled agrees)
  · obtain rfl | stays := Pool.mem_of_mem (y := c') here member
    · exact mapping k maps le
    · exact .inr ⟨d, cores ▸ stays, k, maps, le⟩

/-- The invariant after a step of one core, from what the step does to the vectors. -/
theorem Inv.advance (inv : Inv s) (here : s.cores[i]? = some c)
    (cores : t.cores = s.cores.set i c') (assigned : Assigned t.ids (t.cores.map Core.toBoot))
    (locked : t.cores.countP Core.holds = if t.lock then 1 else 0)
    (fine : c'.Fine t.gvecs t.lvecs)
    (others : ∀ d ∈ s.cores, d.Fine s.gvecs s.lvecs → d.Fine t.gvecs t.lvecs)
    (copied : ∀ id, c'.Copied id → c.Copied id ∨
      ∀ v, v < numMappableVec → Current t.gvecs t.lvecs id v)
    (covered : ∀ id v, id ≤ s.ids.lastid → Covered s id v → Covered t id v) : Inv t := by
  have old : ∀ d ∈ s.cores, ∀ id, d.Copied id → ∀ v, v < numMappableVec → Covered t id v :=
    fun d member id done v hv =>
      covered id v (inv.known member done) (inv.covered d member id done v hv)
  constructor
  · exact assigned
  · exact locked
  · intro d member
    rw [cores] at member
    obtain rfl | there := Pool.mem_set here member
    · exact fine
    · exact others d there (inv.fine d there)
  · intro d member id done v hv
    rw [cores] at member
    obtain rfl | there := Pool.mem_set here member
    · obtain before | now := copied id done
      · exact old c (List.mem_of_getElem? here) id before v hv
      · exact .inl fun _ => now v hv
    · exact old d there id done v hv

/-- A step that leaves all vectors alone. -/
theorem Inv.frame (inv : Inv s) (here : s.cores[i]? = some c) (cores : t.cores = s.cores.set i c')
    (gvecs : t.gvecs = s.gvecs) (lvecs : t.lvecs = s.lvecs)
    (assigned : Assigned t.ids (t.cores.map Core.toBoot))
    (locked : t.cores.countP Core.holds = if t.lock then 1 else 0)
    (fine : c'.Fine s.gvecs s.lvecs) (copied : ∀ id, c'.Copied id → c.Copied id)
    (mapping : ∀ v k, c.Mapping v k → c'.Mapping v k ∨ s.ids.lastid < k) : Inv t := by
  apply inv.advance here cores assigned locked
  · rwa [gvecs, lvecs]
  · rw [gvecs, lvecs]
    exact fun _ _ fine => fine
  · exact fun id done => .inl (copied id done)
  · intro id v known covered
    apply covered.set here cores
    · rw [gvecs, lvecs]
      exact fun agrees => agrees
    · intro k maps le
      obtain stays | past := mapping v k maps
      · exact .inr ⟨c', cores ▸ Pool.mem_self here, k, stays, le⟩
      · omega

/-- A step of a core that only goes somewhere. -/
theorem Inv.goto (inv : Inv s) (here : s.cores[i]? = some c) (same : c'.toBoot = c.toBoot)
    (holds : c'.holds = c.holds) (fine : c'.Fine s.gvecs s.lvecs)
    (copied : ∀ id, c'.Copied id → c.Copied id)
    (mapping : ∀ v k, c.Mapping v k → c'.Mapping v k ∨ s.ids.lastid < k) :
    Inv (s.goto i c') := by
  have count := inv.locked_set c' here
  rw [holds] at count
  exact inv.frame here rfl rfl rfl (inv.toBoot here same) (Nat.add_right_cancel count) fine copied
    mapping

/-- A core takes the lock. -/
theorem Inv.lock (inv : Inv s) (here : s.cores[i]? = some c) (free : s.lock = false)
    (same : c'.toBoot = c.toBoot) (holds : c.holds = false) (holds' : c'.holds = true)
    (fine : c'.Fine s.gvecs s.lvecs) (copied : ∀ id, c'.Copied id → c.Copied id) :
    Inv ({ s with lock := true }.goto i c') := by
  have count := inv.locked_set c' here
  simp only [holds, holds', free, Bool.false_eq_true, if_true, if_false] at count
  refine inv.frame here rfl rfl rfl (inv.toBoot here same) ?_ fine copied ?_
  · exact count
  · intro v k maps
    rw [maps.holds] at holds
    cases holds

/-- A core gives the lock back. -/
theorem Inv.unlock (inv : Inv s) (here : s.cores[i]? = some c) (same : c'.toBoot = c.toBoot)
    (holds : c.holds = true) (holds' : c'.holds = false) (fine : c'.Fine s.gvecs s.lvecs)
    (copied : ∀ id, c'.Copied id → c.Copied id) (done : ∀ v k, ¬ c.Mapping v k) :
    Inv ({ s with lock := false }.goto i c') := by
  have count := inv.locked_set c' here
  simp only [holds, holds', Bool.false_eq_true, if_true, if_false] at count
  refine inv.frame here rfl rfl rfl (inv.toBoot here same) ?_ fine copied ?_
  · simp only [State.goto, Bool.false_eq_true, if_false]
    split at count <;> omega
  · exact fun v k maps => absurd maps (done v k)

/-- Writing the vector that is mapped keeps all vectors that are right. -/
theorem setLvec_current {k v x id w : Nat} (value : s.gvecs v = x)
    (current : Current s.gvecs s.lvecs id w) : Current s.gvecs (s.setLvec k v x).lvecs id w := by
  intro inside
  rw [State.setLvec]
  dsimp only
  split_ifs with here
  · rw [here.2, value]
  · exact current inside

/-- The vector that is written is the one that is mapped. -/
theorem setLvec_self {k v x : Nat} (value : s.gvecs v = x) :
    Current s.gvecs (s.setLvec k v x).lvecs k v := fun _ => (if_pos ⟨rfl, rfl⟩).trans value.symm

/-- A core writes a vector that is mapped, to its own vectors or another core's. -/
theorem Inv.write {k v x : Nat} (inv : Inv s) (here : s.cores[i]? = some c)
    (value : s.gvecs v = x) (same : c'.toBoot = c.toBoot) (holds : c'.holds = c.holds)
    (fine : c'.Fine s.gvecs (s.setLvec k v x).lvecs)
    (copied : ∀ id, c'.Copied id → c.Copied id ∨
      ∀ v, v < numMappableVec → Current s.gvecs s.lvecs id v)
    (mapping : ∀ w j, c.Mapping w j → w = v ∧ j = k ∧ c'.Mapping w (j + 1)) :
    Inv ((s.setLvec k v x).goto i c') := by
  have count := inv.locked_set c' here
  rw [holds] at count
  refine inv.advance here rfl (inv.toBoot here same) (Nat.add_right_cancel count) fine ?_ ?_ ?_
  · intro d _ fine
    cases d with
    | copy myid j => exact fun w lt => setLvec_current value (fine w lt)
    | run myid call => cases call <;> exact fine
    | boot | setLcore | copyLock | copyUnlock | assertLcore | crashed => trivial
  · intro id done
    obtain before | now := copied id done
    · exact .inl before
    · exact .inr fun w lt => setLvec_current value (now w lt)
  · intro id w _ covered
    apply covered.set here rfl
    · exact fun agrees handler => setLvec_current value (agrees handler)
    · intro j maps le
      obtain ⟨rfl, rfl, next⟩ := mapping w j maps
      by_cases here' : id = j
      · exact .inl fun _ => here' ▸ setLvec_self value
      · exact .inr ⟨c', Pool.mem_self here, j + 1, next, by omega⟩

/-- A core that has the lock sets a vector, which is no handler or which it goes on to map. -/
theorem Inv.assign {v x : Nat} (inv : Inv s) (here : s.cores[i]? = some c) (free : Nat)
    (same : c'.toBoot = c.toBoot) (holds : c.holds = true) (holds' : c'.holds = true)
    (idle : ∀ gvecs lvecs, c.Fine gvecs lvecs) (none : ∀ w j, ¬ c.Mapping w j)
    (fine : c'.Fine (s.setGvec v x).gvecs s.lvecs) (copied : ∀ id, c'.Copied id → c.Copied id)
    (maps : ¬ IsHandler x ∨ c'.Mapping v 0) :
    Inv ({ s.setGvec v x with free }.goto i c') := by
  have count := inv.locked_set c' here
  rw [holds, holds'] at count
  refine inv.advance here rfl (inv.toBoot here same) (Nat.add_right_cancel count) fine ?_ ?_ ?_
  · intro d member fine
    -- No other core is in the middle of a loop.
    by_cases other : d.holds
    · exact inv.holder here holds member other ▸ idle _ _
    · cases d with
      | run myid call => cases call <;> trivial
      | copy => exact absurd rfl other
      | boot | setLcore | copyLock | copyUnlock | assertLcore | crashed => trivial
  · exact fun id done => .inl (copied id done)
  · intro id w _ covered
    by_cases vec : w = v
    · subst vec
      obtain no | maps := maps
      · left
        intro handler
        simp [State.goto, State.setGvec] at handler
        exact absurd handler no
      · exact .inr ⟨c', Pool.mem_self here, 0, maps, Nat.zero_le _⟩
    · have other : (s.setGvec v x).gvecs w = s.gvecs w := Function.update_of_ne vec ..
      apply covered.set here rfl
      · exact fun agrees handler inside => (agrees (other ▸ handler) inside).trans other.symm
      · exact fun j maps => absurd maps (none w j)

theorem Inv.moveCall {myid : Nat} {call : Call} (inv : Inv s)
    (here : s.cores[i]? = some (.run myid call)) (moved : s.moveCall i myid mapped call = some t) :
    Inv t := by
  cases call with
  | idle | mapFailed => cases moved
  | allocLock =>
      obtain ⟨free, moved⟩ := Option.ite_none_left_eq_some.mp moved
      cases moved
      exact inv.lock here (Bool.not_eq_true _ ▸ free) rfl rfl rfl trivial fun _ copied => copied
  | mapLock vec h =>
      obtain ⟨free, moved⟩ := Option.ite_none_left_eq_some.mp moved
      cases moved
      exact inv.lock here (Bool.not_eq_true _ ▸ free) rfl rfl rfl trivial fun _ copied => copied
  | allocLoop k rtn =>
      simp only [State.moveCall] at moved
      split at moved
      · split at moved
        · cases moved
          refine inv.assign here _ rfl rfl rfl ?_ ?_ ?_ ?_ ?_
          · exact fun _ _ => trivial
          · exact fun _ _ maps => maps
          · trivial
          · exact fun _ copied => copied
          · exact .inl fun handler => handler.2 rfl
        · cases moved
          exact inv.goto here rfl rfl trivial (fun _ copied => copied) fun _ _ maps => maps.elim
      · cases moved
        exact inv.goto here rfl rfl trivial (fun _ copied => copied) fun _ _ maps => maps.elim
  | mapTest vec h =>
      simp only [State.moveCall] at moved
      split at moved
      · cases moved
        exact inv.goto here rfl rfl trivial (fun _ copied => copied) fun _ _ maps => maps.elim
      · cases moved
        refine inv.assign here s.free rfl rfl rfl ?_ ?_ ?_ ?_ ?_
        · exact fun _ _ => trivial
        · exact fun _ _ maps => maps
        · exact Function.update_self ..
        · exact fun _ copied => copied
        · exact .inr ⟨rfl, rfl⟩
  | mapNext vec h k =>
      have mapped := inv.fine _ (List.mem_of_getElem? here)
      cases moved
      by_cases more : k ≤ s.ids.lastid
      · rw [if_pos more]
        exact inv.goto here rfl rfl mapped (fun _ copied => copied) fun _ _ maps => .inl maps
      · rw [if_neg more]
        refine inv.goto here rfl rfl trivial (fun _ copied => copied) ?_
        rintro v j ⟨rfl, rfl⟩
        exact .inr (Nat.lt_of_not_le more)
  | mapWrite vec h k =>
      have mapped := inv.fine _ (List.mem_of_getElem? here)
      obtain ⟨lcore, _, rfl⟩ := Option.map_eq_some_iff.mp moved
      split
      · exact inv.goto here rfl rfl trivial (fun _ copied => copied) fun _ _ maps => .inl maps
      · refine inv.write here mapped rfl rfl mapped ?_ ?_
        · exact fun _ copied => .inl copied
        · rintro w j ⟨rfl, rfl⟩
          exact ⟨rfl, rfl, rfl, rfl⟩
  | mapSource =>
      cases moved
      exact inv.goto here rfl rfl trivial (fun _ copied => copied) fun _ _ maps => maps.elim
  | unlock ret =>
      cases moved
      exact inv.unlock here rfl rfl rfl trivial (fun _ copied => copied) fun _ _ maps => maps

theorem Inv.moveCore (inv : Inv s) (here : s.cores[i]? = some c)
    (moved : s.moveCore i lcore mapped c = some t) : Inv t := by
  cases c with
  | boot b =>
      by_cases done : ∃ myid, b = .assigned myid
      · obtain ⟨myid, rfl⟩ := done
        cases moved
        exact inv.goto here rfl rfl trivial (fun _ copied => copied) fun _ _ maps => maps.elim
      · rw [State.moveCore, Option.map_eq_some_iff] at moved
        · obtain ⟨⟨g, b'⟩, booted, rfl⟩ := moved
          have count := inv.locked_set (.boot b') here
          refine inv.frame here rfl rfl rfl ?_ (Nat.add_right_cancel count) trivial
            (fun _ copied => copied) fun _ _ maps => maps.elim
          have boot : (s.cores.map Core.toBoot)[i]? = some b := by
            rw [List.getElem?_map, here, Option.map_some]
            rfl
          have assigned : Assigned g ((s.cores.map Core.toBoot).set i (Core.boot b').toBoot) :=
            inv.assigned.step boot booted
          rwa [← List.map_set] at assigned
        · exact fun myid same => done ⟨myid, same⟩
  | setLcore myid =>
      cases moved
      have inv' : Inv (s.goto i (.copyLock myid)) :=
        inv.goto here rfl rfl trivial (fun _ copied => copied) fun _ _ maps => maps.elim
      exact ⟨inv'.assigned, inv'.locked, inv'.fine, inv'.covered⟩
  | copyLock myid =>
      obtain ⟨free, moved⟩ := Option.ite_none_left_eq_some.mp moved
      cases moved
      refine inv.lock here (Bool.not_eq_true _ ▸ free) rfl rfl rfl ?_ ?_
      · exact fun v lt => absurd lt (Nat.not_lt_zero v)
      · exact fun _ copied => copied
  | copy myid k =>
      have copied := inv.fine _ (List.mem_of_getElem? here)
      simp only [State.moveCore] at moved
      split at moved
      · cases moved
        refine inv.write here rfl rfl rfl ?_ (fun _ done => done.elim) fun _ _ maps => maps.elim
        intro v lt
        by_cases last : v = k
        · exact last ▸ setLvec_self rfl
        · exact setLvec_current rfl (copied v (by omega))
      · cases moved
        refine inv.write here rfl rfl rfl trivial ?_ fun _ _ maps => maps.elim
        rintro _ rfl
        exact .inr fun v lt => copied v (by omega)
  | copyUnlock myid =>
      cases moved
      exact inv.unlock here rfl rfl rfl trivial (fun _ copied => copied) fun _ _ maps => maps
  | assertLcore myid =>
      obtain ⟨lcore, _, rfl⟩ := Option.map_eq_some_iff.mp moved
      split
      · exact inv.goto here rfl rfl trivial (fun _ copied => copied.elim) fun _ _ maps => maps.elim
      · exact inv.goto here rfl rfl trivial (fun _ copied => copied) fun _ _ maps => maps.elim
  | run myid call => exact inv.moveCall here moved
  | crashed => cases moved

/-- A new core has copied nothing. -/
theorem Inv.addCore (inv : Inv s) : Inv { s with cores := s.cores ++ [.boot .enter] } := by
  constructor
  · rw [List.map_append]
    exact inv.assigned.create
  · rw [List.countP_append]
    exact inv.locked
  · intro c member
    obtain old | new := List.mem_append.mp member
    · exact inv.fine c old
    · cases List.mem_singleton.mp new
      trivial
  · intro c member id done v hv
    obtain old | new := List.mem_append.mp member
    · obtain agrees | ⟨d, there, k, maps⟩ := inv.covered c old id done v hv
      · exact .inl agrees
      · exact .inr ⟨d, List.mem_append_left _ there, k, maps⟩
    · cases List.mem_singleton.mp new
      exact done.elim

theorem Inv.step {a : Action} (inv : Inv s) (moved : s.step a = some t) : Inv t := by
  cases a with
  | move i lcore mapped =>
      obtain ⟨_, moved⟩ := Option.ite_none_left_eq_some.mp moved
      obtain ⟨c, here, moved⟩ := Option.bind_eq_some_iff.mp moved
      exact inv.moveCore here moved
  | call i request =>
      obtain ⟨_, moved⟩ := Option.ite_none_left_eq_some.mp moved
      split at moved
      · rename_i here
        cases request with
        | allocvec =>
            cases moved
            exact inv.goto here rfl rfl trivial (fun _ copied => copied) fun _ _ maps => maps.elim
        | mapvec vec h =>
            obtain ⟨_, moved⟩ := Option.ite_none_right_eq_some.mp moved
            cases moved
            exact inv.goto here rfl rfl trivial (fun _ copied => copied) fun _ _ maps => maps.elim
      · cases moved
  | addCore i =>
      obtain ⟨_, moved⟩ := Option.ite_none_left_eq_some.mp moved
      split at moved
      · cases moved
        exact inv.addCore
      · cases moved

theorem inv_reach (run : (machine h).Reach s) : Inv s := by
  apply run.invariant
  · rintro _ rfl
    exact inv_start
  · intro _ _ _ _ inv _ moved
    exact inv.step moved

/-- The ids are below the number of cores. -/
theorem Inv.id_lt (inv : Inv s) (member : c ∈ s.cores) {id : Nat} (copied : c.Copied id) :
    id < s.cores.length := by
  have boot := List.mem_map_of_mem (f := Core.toBoot) member
  rw [copied.toBoot] at boot
  have count := inv.assigned.initial.length_eq
  rw [List.length_range] at count
  have most := List.length_filterMap_le Boot.id? (s.cores.map Core.toBoot)
  rw [List.length_map] at most
  exact (inv.assigned.lt boot rfl).trans_le (count.symm.trans_le most)

/-- When the lock is free, no vector is still to be written. -/
theorem vectors_agree (run : (machine h).Reach s) (few : s.cores.length ≤ maxPics)
    (unlocked : s.lock = false) : Agree s := by
  have inv := inv_reach run
  intro c member id done v hv handler
  have inside : id < maxPics := (inv.id_lt member done).trans_le few
  obtain agrees | ⟨d, there, k, maps, _⟩ := inv.covered c member id done v hv
  · exact (dif_pos inside).trans (congrArg some (agrees handler inside))
  · have none := inv.locked
    rw [unlocked, if_neg Bool.false_ne_true, List.countP_eq_zero] at none
    exact absurd maps.holds (none d there)

/-- One core starts, allocates a vector and maps it. -/
def mapOne : List Action :=
  List.replicate 39 (Action.move 0 1 true) ++ [Action.call 0 .allocvec] ++
    List.replicate 3 (Action.move 0 1 true) ++ [Action.call 0 (.mapvec 0 9)] ++
    List.replicate 7 (Action.move 0 1 true)

/-- Another core copies the vectors after that. -/
example : ∃ s, (machine 5).Reach s ∧ s.gvecs 0 = 9 ∧ .run 1 (.idle none) ∈ s.cores ∧ Agree s := by
  have ran : ((machine 5).exec (start 5)
      (mapOne ++ [.addCore 0] ++ List.replicate 44 (Action.move 1 1 true))).map
        (fun s => (s.lock, s.gvecs 0, s.cores.length, s.cores[1]?)) =
      some (false, 9, 2, some (.run 1 (.idle none))) := by rfl
  obtain ⟨s, ran, final⟩ := Option.map_eq_some_iff.mp ran
  simp only [Prod.mk.injEq] at final
  obtain ⟨unlocked, vector, length, core⟩ := final
  have run : (machine 5).Reach s := Machine.reachVia_of_execVia rfl ran
  exact ⟨s, run, vector, List.mem_of_getElem? core,
    vectors_agree run (by rw [length]; decide) unlocked⟩

/-- 64 cores are added and take their ids, and the last one copies the vectors. -/
def crowded : List Action :=
  mapOne ++ List.replicate maxPics (.addCore 0) ++
    (List.range' 1 (maxPics - 1)).map (fun i => .move i 1 true) ++
    List.replicate 43 (.move maxPics 1 true)

theorem crowded_run : ∃ s, (machine 5).exec (start 5) crowded = some s ∧
    s.cores.length = maxPics + 1 ∧ s.lock = false ∧ ¬ Agree s := by
  have ran : ((machine 5).exec (start 5) crowded).map
      (fun s => (s.cores.length, s.lock, s.gvecs 0, s.cores[maxPics]?)) =
      some (maxPics + 1, false, 9, some (.assertLcore maxPics)) := by decide +kernel
  obtain ⟨s, ran, final⟩ := Option.map_eq_some_iff.mp ran
  simp only [Prod.mk.injEq] at final
  obtain ⟨length, unlocked, vector, core⟩ := final
  refine ⟨s, ran, length, unlocked, fun agree => ?_⟩
  have handler : IsHandler (s.gvecs 0) := vector ▸ ⟨by decide, by decide⟩
  have found := agree _ (List.mem_of_getElem? core) maxPics rfl 0 (by decide) handler
  cases found

/-- The vectors of core 64 are behind `lpics`. -/
theorem exists_not_agree : ∃ s, (machine 5).Reach s ∧ s.cores.length = maxPics + 1 ∧
    s.lock = false ∧ ¬ Agree s := by
  obtain ⟨s, ran, differ⟩ := crowded_run
  exact ⟨s, Machine.reachVia_of_execVia rfl ran, differ⟩

/-- The vectors agree in all runs with at most `n` cores if and only if `lpics` has an entry for
each core. -/
theorem vectors_agree_iff {n : Nat} :
    (∀ h s, (machine h).Reach s → s.cores.length ≤ n → s.lock = false → Agree s) ↔
      n ≤ maxPics := by
  constructor
  · intro all
    by_contra more
    obtain ⟨s, ran, length, unlocked, differ⟩ := crowded_run
    exact differ (all 5 s (Machine.reachVia_of_execVia rfl ran) (by omega) unlocked)
  · exact fun few h s run count => vectors_agree run (count.trans few)

end

end EBBLib.Pic.Vectors
