import EBBLib.Pic.Unix

/-!
# Calls to the pic

Each call is one step here, as the lock of the pic makes it for all but the flags of a core,
which only that core accesses. The accesses to the vectors, flags and descriptors at a number
that a caller has chosen are on record, because no call compares that number with the sizes
of the arrays.

`lrt_pic_allocvec` looks for a free vector from a hint on that moves with each success. A
vector is taken while its entry in `pic.gvecs` is not null, be it the mark of
`lrt_pic_allocvec` or a handler.
-/

namespace EBBLib.Pic.Calls

open Vectors (numVec numMappableVec rstVec unmapped)
open Unix (Upic Src lockedMap lockedEnable lockedDisable lrtPicUnixInit)

/-- `IPI_VEC`. -/
def ipiVec : Nat := numMappableVec

/-- An access to the entry of a vector. -/
inductive Access where
  | readGvec (vec : Nat)
  | writeGvec (vec : Nat)
  | writeLvec (id vec : Nat)
  | writeEnabled (id vec : Nat)
  /-- `dup2` to the descriptor of the vector and `FD_SET` in the sets of the interests. -/
  | mapFd (vec : Nat)
  /-- `FD_SET` and `FD_CLR` in the set of the enabled descriptors. -/
  | switchFd (vec : Nat)
deriving DecidableEq, Repr

def Access.vec : Access → Nat
  | readGvec vec | writeGvec vec | writeLvec _ vec | writeEnabled _ vec | mapFd vec
  | switchFd vec => vec

/-- A global or local vector is replaced, or a descriptor is mapped. -/
def Access.replaces : Access → Bool
  | writeGvec _ | writeLvec _ _ | mapFd _ => true
  | _ => false

/-- `pic`, `upic`, `lrt_pic_lastid` and `lpics`, where the first id is 0. -/
structure State where
  gvecs : Nat → Nat
  free : Nat
  lastid : Nat
  lcore : Nat → Nat
  lvecs : Nat → Nat → Nat
  enabled : Nat → Nat → Bool
  upic : Upic
  accesses : List Access

namespace State

variable (s : State)

def access (a : Access) : State := { s with accesses := a :: s.accesses }

/-- `pic.gvecs[vec] = h`. -/
def setGvec (vec h : Nat) : State :=
  { s with gvecs := Function.update s.gvecs vec h }.access (.writeGvec vec)

/-- `lpics[id].lvecs[vec] = h`. -/
def setLvec (id vec h : Nat) : State :=
  { s with lvecs := Function.update s.lvecs id (Function.update (s.lvecs id) vec h) }.access
    (.writeLvec id vec)

/-- `lpics[id].enabled[vec] = on`. -/
def setEnabled (id vec : Nat) (on : Bool) : State :=
  { s with enabled := Function.update s.enabled id (Function.update (s.enabled id) vec on) }.access
    (.writeEnabled id vec)

/-- `lrt_pic_enable`. -/
def enable (myid vec : Nat) : State := s.setEnabled myid vec true

/-- `lrt_pic_disable`. -/
def disable (myid vec : Nat) : State := if vec ≠ rstVec then s.setEnabled myid vec false else s

/-- The loop of `lrt_pic_allocvec`. -/
def allocFrom (gvecs : Nat → Nat) : Nat → Nat → Option Nat
  | 0, _ => none
  | todo + 1, rtn =>
      if gvecs rtn = 0 then some rtn
      else allocFrom gvecs todo (if rtn + 1 ≥ numMappableVec then 0 else rtn + 1)

/-- `lrt_pic_allocvec`. -/
def allocvec : Int × Option Nat × State :=
  match allocFrom s.gvecs numMappableVec s.free with
  | none => (-1, none, s)
  | some rtn =>
      (1, some rtn, { s with
        gvecs := Function.update s.gvecs rtn unmapped
        free := if s.free + 1 ≥ numMappableVec then 0 else s.free + 1 })

/-- The loop of `lrt_pic_mapvec` over the cores from `i` on. It ends with the process where
the assertion fails. -/
def mapLvecs (vec h : Nat) : Nat → Nat → State → Option State
  | 0, _, s => some s
  | todo + 1, i, s =>
      if s.lcore i = 0 then none else mapLvecs vec h todo (i + 1) (s.setLvec i vec h)

/-- `lrt_pic_mapvec`. -/
def mapvec (src : Src) (vec h : Nat) (mapped : Bool) : Option (Int × State) :=
  let s := s.access (.readGvec vec)
  if s.gvecs vec = 0 then some (-1, s)
  else
    (mapLvecs vec h (s.lastid + 1) 0 (s.setGvec vec h)).map fun s =>
      let (rc, upic) := lockedMap s.upic src vec mapped
      (if rc ≥ 0 then 1 else -1, { s with upic }.access (.mapFd vec))

/-- `lrt_pic_vecon`. Waking up the cores changes nothing here. -/
def vecon (vec : Nat) : Int × State :=
  let s := s.access (.readGvec vec)
  if s.gvecs vec = 0 then (-1, s)
  else
    let (rc, upic) := lockedEnable s.upic vec
    (if rc ≠ 0 then -1 else 1, { s with upic }.access (.switchFd vec))

/-- `lrt_pic_vecoff`. -/
def vecoff (vec : Nat) : Int × State :=
  let s := s.access (.readGvec vec)
  if s.gvecs vec = 0 then (-1, s)
  else
    let (rc, upic) := lockedDisable s.upic vec
    (if rc ≠ 0 then -1 else 1, { s with upic }.access (.switchFd vec))

/-- `lrt_pic_mapipi`. -/
def mapipi (myid h : Nat) : State :=
  { s with lvecs := Function.update s.lvecs myid (Function.update (s.lvecs myid) ipiVec h) }

/-- The start of `lrt_pic_loop` on core `myid`, up to its first wait for an interrupt. -/
def startCore (myid lcore : Nat) : State :=
  { s with
    lcore := Function.update s.lcore myid lcore
    lvecs := Function.update s.lvecs myid fun vec =>
      if vec < numMappableVec ∨ vec = rstVec then s.gvecs vec else s.lvecs myid vec
    enabled := Function.update s.enabled myid fun vec =>
      vec = ipiVec ∨ vec = rstVec ∨ s.enabled myid vec }

end State

/-- `lrt_pic_init` with the reset handler `h`, up to the first wait of the first core. -/
def lrtPicInit (h lcore : Nat) : State :=
  { gvecs := Function.update (fun _ => 0) rstVec h
    free := 0
    lastid := 0
    lcore := fun _ => 0
    lvecs := fun _ _ => 0
    enabled := fun _ _ => false
    upic := lrtPicUnixInit
    accesses := [] : State }.startCore 0 lcore

/-! ### Allocation in every run -/

/-- The pic, with the vectors that calls have returned on record. -/
structure Run where
  pic : State
  returned : List Nat

inductive Action where
  | allocvec
  | mapvec (src : Src) (vec h : Nat) (mapped : Bool)
  /-- One more core comes up, and the system provides its logical core. -/
  | startCore (lcore : Nat)

/-- A call, by any of the cores. Callers map vectors that they have allocated. -/
def Run.step (r : Run) : Action → Option Run
  | .allocvec =>
      let (rc, vec, pic) := r.pic.allocvec
      some ⟨pic, if 0 ≤ rc then vec.toList ++ r.returned else r.returned⟩
  | .mapvec src vec h mapped =>
      if vec ∈ r.returned ∧ h ≠ 0 then
        (r.pic.mapvec src vec h mapped).map fun (_, pic) => { r with pic }
      else none
  | .startCore lcore =>
      -- The assertions on the id and on the logical core.
      if r.pic.lastid + 1 ≤ Trans.maxPics ∧ lcore ≠ 0 then
        let pic := { r.pic with lastid := r.pic.lastid + 1 }
        some { r with pic := pic.startCore pic.lastid lcore }
      else none

def machine (h : Nat) : Machine Run Action where
  init r := ∃ lcore, lcore ≠ 0 ∧ r = ⟨lrtPicInit h lcore, []⟩
  step := Run.step

section

variable {r r' : Run} {h todo rtn v : Nat} {gvecs : Nat → Nat}

/-- The loop looks at the vectors from the hint on, with the first behind the last. -/
theorem allocFrom_cases (gvecs : Nat → Nat) (todo : Nat) (small : rtn < numMappableVec) :
    (State.allocFrom gvecs todo rtn = none ∧
        ∀ k, k < todo → gvecs ((rtn + k) % numMappableVec) ≠ 0) ∨
      ∃ v, State.allocFrom gvecs todo rtn = some v ∧ v < numMappableVec ∧ gvecs v = 0 := by
  induction todo generalizing rtn with
  | zero => exact .inl ⟨rfl, nofun⟩
  | succ todo ih =>
      rw [State.allocFrom]
      by_cases free : gvecs rtn = 0
      · exact .inr ⟨rtn, if_pos free, small, free⟩
      · have size : numMappableVec = 32 := rfl
        have wrap : (if rtn + 1 ≥ numMappableVec then 0 else rtn + 1) =
            (rtn + 1) % numMappableVec := by
          rw [size]
          split <;> omega
        have inside : (rtn + 1) % numMappableVec < numMappableVec := Nat.mod_lt _ (by decide)
        rw [if_neg free, wrap]
        obtain ⟨full, taken⟩ | found := ih inside
        · refine .inl ⟨full, fun k before => ?_⟩
          cases k with
          | zero => rwa [Nat.add_zero, Nat.mod_eq_of_lt small]
          | succ k =>
              have next : ((rtn + 1) % numMappableVec + k) % numMappableVec =
                  (rtn + (k + 1)) % numMappableVec := by
                rw [size]
                omega
              rw [← next]
              exact taken k (by omega)
        · exact .inr found

/-- The entries that are not null are those of the vectors that have been returned. -/
structure Inv (r : Run) : Prop where
  distinct : r.returned.Nodup
  mappable : ∀ v ∈ r.returned, v < numMappableVec
  free : r.pic.free < numMappableVec
  taken : ∀ v, v < numMappableVec → (r.pic.gvecs v ≠ 0 ↔ v ∈ r.returned)

theorem inv_init (start : (machine h).init r) : Inv r := by
  obtain ⟨lcore, -, rfl⟩ := start
  refine ⟨List.nodup_nil, nofun, Nat.zero_lt_succ _, fun v inside => ?_⟩
  have other : v ≠ rstVec := by
    have size : numMappableVec = 32 ∧ rstVec = 33 := ⟨rfl, rfl⟩
    omega
  simp [lrtPicInit, State.startCore, other]

theorem Inv.allocvec (inv : Inv r)
    (found : State.allocFrom r.pic.gvecs numMappableVec r.pic.free = some v)
    (inside : v < numMappableVec) (null : r.pic.gvecs v = 0) :
    Inv ⟨r.pic.allocvec.2.2, v :: r.returned⟩ := by
  have fresh : v ∉ r.returned := fun old => (inv.taken v inside).2 old null
  rw [State.allocvec, found]
  refine ⟨List.nodup_cons.2 ⟨fresh, inv.distinct⟩, ?_, ?_, fun w small => ?_⟩
  · intro w member
    obtain rfl | old := List.mem_cons.1 member
    · exact inside
    · exact inv.mappable w old
  · simp only
    split
    · decide
    · omega
  · simp only [List.mem_cons, Function.update_apply]
    by_cases here : w = v
    · simp [here, unmapped]
    · simpa [here] using inv.taken w small

/-- The loop replaces the local vectors of its cores. -/
theorem mapLvecs_some {vec i : Nat} {s t : State} (ran : State.mapLvecs vec h todo i s = some t) :
    ∃ as, (∀ a ∈ as, ∃ id, a = .writeLvec id vec) ∧
      t = { s with
        lvecs := fun id =>
          if i ≤ id ∧ id < i + todo then Function.update (s.lvecs id) vec h else s.lvecs id
        accesses := as ++ s.accesses } := by
  induction todo generalizing i s with
  | zero =>
      obtain rfl := Option.some.inj ran
      have none : ∀ id, ¬ (i ≤ id ∧ id < i + 0) := fun id => by omega
      exact ⟨[], nofun, by simp only [if_neg (none _), List.nil_append]⟩
  | succ todo ih =>
      rw [State.mapLvecs, Option.ite_none_left_eq_some] at ran
      obtain ⟨as, writes, rfl⟩ := ih ran.2
      refine ⟨as ++ [.writeLvec i vec], fun a member => ?_, ?_⟩
      · obtain later | here := List.mem_append.1 member
        · exact writes a later
        · exact ⟨i, List.mem_singleton.1 here⟩
      · have loop : ∀ id, (if i + 1 ≤ id ∧ id < i + 1 + todo then
            Function.update ((s.setLvec i vec h).lvecs id) vec h else
              (s.setLvec i vec h).lvecs id) =
              if i ≤ id ∧ id < i + (todo + 1) then Function.update (s.lvecs id) vec h
              else s.lvecs id := by
          intro id
          by_cases here : id = i
          · subst here
            rw [if_neg (by omega), if_pos (by omega)]
            exact Function.update_self ..
          · have same : (s.setLvec i vec h).lvecs id = s.lvecs id := Function.update_of_ne here ..
            have range : (i + 1 ≤ id ∧ id < i + 1 + todo) ↔ (i ≤ id ∧ id < i + (todo + 1)) := by
              omega
            rw [same]
            simp only [range]
        simp only [loop, List.append_assoc]
        rfl

theorem mapLvecs_isSome {vec i : Nat} {s : State}
    (up : ∀ id, i ≤ id → id < i + todo → s.lcore id ≠ 0) :
    (State.mapLvecs vec h todo i s).isSome := by
  induction todo generalizing i s with
  | zero => rfl
  | succ todo ih =>
      rw [State.mapLvecs, if_neg (up i (Nat.le_refl i) (by omega))]
      exact ih fun id above below => up id (by omega) (by omega)

/-- The pic behind `lrt_pic_mapvec` of a vector that is not free, with the accesses `as` of the
loop. -/
def State.replaced (s : State) (src : Src) (vec h : Nat) (mapped : Bool) (as : List Access) :
    State :=
  { s with
    gvecs := Function.update s.gvecs vec h
    lvecs := fun id => if id ≤ s.lastid then Function.update (s.lvecs id) vec h else s.lvecs id
    upic := (lockedMap s.upic src vec mapped).2
    accesses := .mapFd vec :: (as ++ .writeGvec vec :: .readGvec vec :: s.accesses) }

/-- `lrt_pic_mapvec` replaces one handler by another, also where the map fails. -/
theorem mapvec_some {src : Src} {vec : Nat} {mapped : Bool} {s t : State} {rc : Int}
    (ran : s.mapvec src vec h mapped = some (rc, t)) :
    s.gvecs vec = 0 ∧ rc = -1 ∧ t = s.access (.readGvec vec) ∨
      s.gvecs vec ≠ 0 ∧ rc = (if mapped then 1 else -1) ∧
        ∃ as, (∀ a ∈ as, ∃ id, a = .writeLvec id vec) ∧ t = s.replaced src vec h mapped as := by
  rw [State.mapvec] at ran
  by_cases null : s.gvecs vec = 0
  · rw [if_pos (by exact null)] at ran
    obtain ⟨rfl, rfl⟩ := Prod.mk.inj (Option.some.inj ran)
    exact .inl ⟨null, rfl, rfl⟩
  · rw [if_neg (by exact null), Option.map_eq_some_iff] at ran
    obtain ⟨middle, loop, same⟩ := ran
    obtain ⟨as, writes, rfl⟩ := mapLvecs_some loop
    obtain ⟨rfl, rfl⟩ := Prod.mk.inj same
    refine .inr ⟨null, ?_, as, writes, ?_⟩
    · cases mapped <;> rfl
    · have cores : ∀ id, (0 ≤ id ∧ id < 0 + (s.lastid + 1)) ↔ id ≤ s.lastid := fun id => by omega
      simp only [State.replaced, ← cores]
      rfl

theorem mapvec_isSome {src : Src} {vec : Nat} {mapped : Bool} {s : State}
    (up : ∀ id ≤ s.lastid, s.lcore id ≠ 0) : (s.mapvec src vec h mapped).isSome := by
  rw [State.mapvec]
  by_cases null : s.gvecs vec = 0
  · rw [if_pos (by exact null)]
    rfl
  · rw [if_neg (by exact null), Option.isSome_map]
    refine mapLvecs_isSome fun id _ below => up id ?_
    have below : id < 0 + (s.lastid + 1) := below
    omega

theorem Inv.mapvec {src : Src} {vec : Nat} {mapped : Bool} {t : State} {rc : Int} (inv : Inv r)
    (nonzero : h ≠ 0) (ran : r.pic.mapvec src vec h mapped = some (rc, t)) :
    Inv { r with pic := t } := by
  obtain ⟨-, -, rfl⟩ | ⟨taken, -, as, -, rfl⟩ := mapvec_some ran
  · exact ⟨inv.distinct, inv.mappable, inv.free, inv.taken⟩
  · refine ⟨inv.distinct, inv.mappable, inv.free, fun v inside => ?_⟩
    rw [← inv.taken v inside]
    simp only [State.replaced, Function.update_apply]
    split
    · rename_i here
      simp [here, nonzero, taken]
    · rfl

theorem inv_step {a : Action} (inv : Inv r) (moved : r.step a = some r') : Inv r' := by
  cases a with
  | allocvec =>
      obtain ⟨full, -⟩ | ⟨v, found, inside, null⟩ :=
        allocFrom_cases r.pic.gvecs numMappableVec inv.free
      · have called : r.pic.allocvec = (-1, none, r.pic) := by rw [State.allocvec, full]
        rw [Run.step, called] at moved
        obtain rfl := Option.some.inj moved
        exact inv
      · have called : r.pic.allocvec = (1, some v, r.pic.allocvec.2.2) := by
          rw [State.allocvec, found]
        have next := inv.allocvec found inside null
        rw [Run.step, called] at moved
        obtain rfl := Option.some.inj moved
        exact next
  | mapvec src vec h mapped =>
      obtain ⟨⟨-, nonzero⟩, moved⟩ := Option.ite_none_right_eq_some.1 moved
      obtain ⟨⟨rc, t⟩, ran, rfl⟩ := Option.map_eq_some_iff.1 moved
      exact inv.mapvec nonzero ran
  | startCore lcore =>
      obtain ⟨-, moved⟩ := Option.ite_none_right_eq_some.1 moved
      obtain rfl := Option.some.inj moved
      exact ⟨inv.distinct, inv.mappable, inv.free, inv.taken⟩

theorem inv (run : (machine h).Reach r) : Inv r :=
  run.invariant (fun _ => inv_init) fun _ _ _ _ inv _ moved => inv_step inv moved

end

end EBBLib.Pic.Calls
