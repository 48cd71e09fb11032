import EBBLib.Library.Pool
import EBBLib.Trans.Address
import Mathlib.Data.List.Range

/-!
# Core ids

Every core takes its id in `lrt_pic_allocate_core_id`, as the first thing it does on its
pic loop. The cores of a run are a list in the order of their creation; the one that
`lrt_pic_init` turned into a core comes first, and is alone while it takes its id.
-/

namespace EBBLib.Pic

open EBBLib.Trans (maxPics)

/-- `pic.numlpics` and `lrt_pic_lastid`. -/
structure Ids where
  numlpics : Nat
  lastid : Nat
deriving DecidableEq, Repr

/-- Where a core is in `lrt_pic_allocate_core_id`, up to the assignment of its id. -/
inductive Boot where
  /-- Before the test of `pic.numlpics`. -/
  | enter
  /-- Before the assertion on its id. -/
  | check (myid : Nat)
  /-- Before a read of `lrt_pic_lastid`. -/
  | load (myid : Nat)
  /-- At the test of the loop, and before the compare-and-swap. -/
  | swap (myid tmp : Nat)
  | assigned (myid : Nat)
  /-- The assertion has failed. -/
  | failed (myid : Nat)
deriving DecidableEq, Repr

namespace Boot

/-- One access to the shared variables. -/
def step (g : Ids) : Boot → Option (Ids × Boot)
  | enter =>
      -- The first core is alone here, and the test fails on all others.
      if g.numlpics = 0 then some (⟨1, 0⟩, assigned 0)
      else some ({ g with numlpics := g.numlpics + 1 }, check g.numlpics)
  | check myid => some (g, if myid ≤ maxPics then load myid else failed myid)
  | load myid => some (g, swap myid g.lastid)
  | swap myid tmp =>
      if tmp < myid then
        some ({ g with lastid := if g.lastid = tmp then myid else g.lastid }, load myid)
      else some (g, assigned myid)
  | assigned _ => none
  | failed _ => none

/-- The id that the core has taken. -/
def id? : Boot → Option Nat
  | enter => none
  | check myid => some myid
  | load myid => some myid
  | swap myid _ => some myid
  | assigned myid => some myid
  | failed myid => some myid

/-- The core has the id, and the assertion has not failed. -/
def Passed (id : Nat) : Boot → Prop
  | load myid => myid = id
  | swap myid _ => myid = id
  | assigned myid => myid = id
  | _ => False

def isFailed : Boot → Bool
  | failed _ => true
  | _ => false

end Boot

/-- The ids that the cores have taken. -/
def taken (boots : List Boot) : List Nat := boots.filterMap Boot.id?

/-- What a core knows of `lrt_pic_lastid`, and of its own id. -/
def Boot.Knows (g : Ids) : Boot → Prop
  | load myid => myid ≤ maxPics
  | swap myid tmp => myid ≤ maxPics ∧ tmp ≤ g.lastid
  | assigned myid => myid ≤ maxPics ∧ myid ≤ g.lastid
  | _ => True

/-- The ids of the cores are the numbers below `pic.numlpics`, and `lrt_pic_lastid` has
reached the id of each core that has left the loop. -/
structure Assigned (g : Ids) (boots : List Boot) : Prop where
  initial : (taken boots).Perm (List.range g.numlpics)
  last : g.lastid < g.numlpics ∨ g = ⟨0, 0⟩
  knows : ∀ b ∈ boots, b.Knows g

section

variable {g g' : Ids} {boots : List Boot} {i id : Nat} {b b' : Boot}

theorem Boot.passed_id (passed : b.Passed id) : b.id? = some id := by
  cases b <;> simp_all [Passed, id?]

theorem Boot.Knows.mono (knows : b.Knows g) (grows : g.lastid ≤ g'.lastid) : b.Knows g' := by
  cases b with
  | swap | assigned => exact ⟨knows.1, knows.2.trans grows⟩
  | enter | check | load | failed => exact knows

theorem assigned_start : Assigned ⟨0, 0⟩ [.enter] := by
  constructor
  · exact List.Perm.refl _
  · exact .inr rfl
  · simp [Boot.Knows]

/-- A new core has no id yet. -/
theorem Assigned.create (assigned : Assigned g boots) : Assigned g (boots ++ [.enter]) := by
  constructor
  · rw [taken, List.filterMap_append, List.filterMap_cons_none rfl, List.filterMap_nil,
      List.append_nil]
    exact assigned.initial
  · exact assigned.last
  · intro b member
    simp only [List.mem_append, List.mem_singleton] at member
    obtain old | rfl := member
    · exact assigned.knows b old
    · trivial

theorem Assigned.lt (assigned : Assigned g boots) (member : b ∈ boots) (has : b.id? = some id) :
    id < g.numlpics := by
  rw [← List.mem_range, ← assigned.initial.mem_iff]
  exact List.mem_filterMap.mpr ⟨b, member, has⟩

/-- `lrt_pic_lastid` never decreases. -/
theorem Assigned.lastid_le (assigned : Assigned g boots) (moved : b.step g = some (g', b')) :
    g.lastid ≤ g'.lastid := by
  cases b with
  | enter =>
      simp only [Boot.step] at moved
      split at moved <;> cases moved
      · obtain last | rfl := assigned.last
        · omega
        · exact Nat.le_refl _
      · exact Nat.le_refl _
  | swap myid tmp =>
      simp only [Boot.step] at moved
      split at moved <;> cases moved
      · simp only
        split <;> omega
      · exact Nat.le_refl _
  | check | load =>
      cases moved
      exact Nat.le_refl _
  | assigned | failed => cases moved

/-- A step that takes an id takes the next one. All others keep what the core has. -/
theorem Assigned.ids (assigned : Assigned g boots) (here : boots[i]? = some b)
    (moved : b.step g = some (g', b')) :
    (taken (boots.set i b')).Perm (List.range g'.numlpics) := by
  have next : ∀ id, b = .enter → b'.id? = some id → id = g.numlpics →
      (taken (boots.set i b')).Perm (List.range (id + 1)) := by
    rintro id rfl has rfl
    rw [List.range_succ]
    apply (Pool.filterMap_set_perm here rfl has).trans
    apply (assigned.initial.cons _).trans
    exact (List.perm_append_singleton _ _).symm
  have same : g'.numlpics = g.numlpics → b'.id? = b.id? →
      (taken (boots.set i b')).Perm (List.range g'.numlpics) := by
    intro count has
    rw [taken, Pool.filterMap_set here has, count]
    exact assigned.initial
  cases b with
  | enter =>
      simp only [Boot.step] at moved
      split at moved <;> cases moved
      · apply next 0 rfl rfl
        omega
      · exact next g.numlpics rfl rfl rfl
  | check myid =>
      cases moved
      apply same rfl
      split <;> rfl
  | load =>
      cases moved
      exact same rfl rfl
  | swap myid tmp =>
      simp only [Boot.step] at moved
      split at moved <;> cases moved <;> exact same rfl rfl
  | assigned | failed => cases moved

/-- `lrt_pic_lastid` stays below `pic.numlpics`. -/
theorem Assigned.last_step (assigned : Assigned g boots) (member : b ∈ boots)
    (moved : b.step g = some (g', b')) : g'.lastid < g'.numlpics ∨ g' = ⟨0, 0⟩ := by
  have last := assigned.last
  cases b with
  | enter =>
      simp only [Boot.step] at moved
      split at moved <;> cases moved
      · exact .inl Nat.one_pos
      · left
        obtain last | rfl := last
        · exact Nat.lt_succ_of_lt last
        · exact Nat.one_pos
  | swap myid tmp =>
      have mine : myid < g.numlpics := assigned.lt member rfl
      simp only [Boot.step] at moved
      split at moved <;> cases moved
      · left
        obtain last | rfl := last
        · simp only
          split <;> assumption
        · exact absurd mine (Nat.not_lt_zero _)
      · exact last
  | check | load =>
      cases moved
      exact last
  | assigned | failed => cases moved

/-- The loop is left only when `lrt_pic_lastid` has reached the core's id. -/
theorem Boot.Knows.step (knows : b.Knows g) (moved : b.step g = some (g', b')) : b'.Knows g' := by
  cases b with
  | enter =>
      simp only [Boot.step] at moved
      split at moved <;> cases moved
      · exact ⟨Nat.zero_le _, Nat.zero_le _⟩
      · trivial
  | check myid =>
      cases moved
      split
      · assumption
      · trivial
  | load myid =>
      cases moved
      exact ⟨knows, Nat.le_refl _⟩
  | swap myid tmp =>
      simp only [Boot.step] at moved
      split at moved <;> cases moved
      · exact knows.1
      · have := knows.2
        exact ⟨knows.1, by omega⟩
  | assigned | failed => cases moved

theorem Assigned.step (assigned : Assigned g boots) (here : boots[i]? = some b)
    (moved : b.step g = some (g', b')) : Assigned g' (boots.set i b') := by
  have member : b ∈ boots := List.mem_of_getElem? here
  constructor
  · exact assigned.ids here moved
  · exact assigned.last_step member moved
  · intro c there
    obtain rfl | old := Pool.mem_set here there
    · exact (assigned.knows b member).step moved
    · exact (assigned.knows c old).mono (assigned.lastid_le moved)

/-- When all cores have left the loop, `lrt_pic_lastid` is the largest id. -/
theorem Assigned.lastid_eq (assigned : Assigned g boots) (some : boots ≠ [])
    (all : ∀ b ∈ boots, ∃ id, b = .assigned id) : g.lastid + 1 = g.numlpics := by
  obtain ⟨b, member⟩ := List.exists_mem_of_ne_nil boots some
  obtain ⟨id, rfl⟩ := all b member
  have positive : id < g.numlpics := assigned.lt member rfl
  -- The core with the largest id has left the loop, too.
  have greatest : g.numlpics - 1 ∈ taken boots := by
    rw [assigned.initial.mem_iff, List.mem_range]
    omega
  obtain ⟨c, there, has⟩ := List.mem_filterMap.mp greatest
  obtain ⟨top, rfl⟩ := all c there
  cases has
  have reached := (assigned.knows _ there).2
  obtain last | rfl := assigned.last
  · omega
  · exact absurd positive (Nat.not_lt_zero _)

end

end EBBLib.Pic
