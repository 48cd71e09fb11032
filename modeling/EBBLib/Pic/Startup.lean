import EBBLib.Library.Transition
import EBBLib.Pic.CoreId

/-!
# Core start-up

The first core starts the others from its reset handler `lrt_start`. Each new core takes
an id, runs `lrt_start` in turn, and joins the loop on the budget `cores_to_start`.
-/

namespace EBBLib.Pic.Startup

open EBBLib.Trans (maxPics)

/-- Where a core is between `lrt_pic_loop` and the end of the loop in `lrt_start`. -/
inductive Core where
  | boot (b : Boot)
  /-- Before the first test of `cores_to_start`. -/
  | test (myid : Nat)
  /-- Before a fetch-and-add. -/
  | spawn (myid : Nat)
  /-- Before a call of `lrt_pic_add_core`. -/
  | create (myid : Nat)
  | started (myid : Nat)
deriving DecidableEq, Repr

namespace Core

/-- A core that runs `lrt_start` has its id. -/
def toBoot : Core → Boot
  | boot b => b
  | test myid => .assigned myid
  | spawn myid => .assigned myid
  | create myid => .assigned myid
  | started myid => .assigned myid

def isCreating : Core → Bool
  | create _ => true
  | _ => false

def isStarted : Core → Bool
  | started _ => true
  | _ => false

end Core

/-- The shared variables, the cores in the order of their creation, and the number of
calls of `pthread_create` that have failed. -/
structure State where
  coresToStart : Int
  ids : Ids
  cores : List Core
  refused : Nat
deriving DecidableEq, Repr

/-- The core that moves, and whether `pthread_create` succeeds if it calls that. -/
structure Action where
  core : Nat
  made : Bool

namespace State

variable (s : State)

def boots : List Boot := s.cores.map Core.toBoot

/-- The move of one core. `lrt_start` is the reset handler that `lrt_pic_loop` runs first. -/
def move (i : Nat) (made : Bool) : Core → Option State
  | .boot (.assigned myid) => some { s with cores := s.cores.set i (.test myid) }
  | .boot b => (b.step s.ids).map fun (ids, b) => { s with ids, cores := s.cores.set i (.boot b) }
  | .test myid =>
      some { s with
        cores := s.cores.set i (if 0 < s.coresToStart then .spawn myid else .started myid) }
  | .spawn myid =>
      some { s with
        coresToStart := s.coresToStart - 1
        cores := s.cores.set i (if 0 < s.coresToStart then .create myid else .started myid) }
  | .create myid =>
      if made then some { s with cores := s.cores.set i (.spawn myid) ++ [.boot .enter] }
      else some { s with cores := s.cores.set i (.spawn myid), refused := s.refused + 1 }
  | .started _ => none

/-- A failed assertion ends the process. -/
def step (a : Action) : Option State :=
  if s.boots.any Boot.isFailed then none else s.cores[a.core]?.bind (s.move a.core a.made)

end State

/-- The first core on its way to its id, with `n` cores requested. -/
def start (n : Nat) : State := ⟨(n : Int) - 1, ⟨0, 0⟩, [.boot .enter], 0⟩

def machine (n : Nat) : Machine State Action where
  init s := s = start n
  step := State.step

/-- What start-up should guarantee of a state, with `n` cores requested. -/
structure Ok (n : Nat) (s : State) : Prop where
  created : s.cores.length + s.refused ≤ n
  all : (∀ c ∈ s.cores, c.isStarted) → s.cores.length + s.refused = n
  distinct : (taken s.boots).Nodup
  initial : ∀ id, id ∈ taken s.boots ↔ id < (taken s.boots).length
  monotone : ∀ a t, s.step a = some t → s.ids.lastid ≤ t.ids.lastid
  largest : (∀ b ∈ s.boots, ∃ id, b = .assigned id) →
    s.ids.lastid ∈ taken s.boots ∧ ∀ id ∈ taken s.boots, id ≤ s.ids.lastid
  bounded : ∀ b ∈ s.boots, ∀ id, b.Passed id → id < maxPics

/-! ### The invariant -/

/-- The budget is spent by the cores that exist, the calls of `pthread_create` that
failed and the cores that are about to call it. -/
structure Budget (n : Nat) (s : State) : Prop where
  spent : (s.cores.length : Int) + s.refused + s.cores.countP Core.isCreating +
    max s.coresToStart 0 = n
  ended : ∀ id, .started id ∈ s.cores → s.coresToStart ≤ 0
  some : s.cores ≠ []

structure Inv (n : Nat) (s : State) : Prop where
  assigned : Assigned s.ids s.boots
  budget : Budget n s

section

variable {n i : Nat} {made : Bool} {s t : State} {a : Action} {c c' : Core}

theorem inv_start (hn : 1 ≤ n) : Inv n (start n) := by
  constructor
  · exact assigned_start
  · constructor
    · simp only [start, List.length_singleton, List.countP_singleton, Core.isCreating]
      simp
      omega
    · simp [start]
    · simp [start]

theorem boots_set : (s.cores.set i c).map Core.toBoot = s.boots.set i c.toBoot := List.map_set

theorem boots_get (here : s.cores[i]? = some c) : s.boots[i]? = some c.toBoot := by
  rw [State.boots, List.getElem?_map, here, Option.map_some]

/-- A core that goes on with its id, with what it takes from the budget. -/
theorem Inv.replace {k : Int} {r : Nat} (c' : Core) (inv : Inv n s) (here : s.cores[i]? = some c)
    (same : c'.toBoot = c.toBoot) (less : k ≤ s.coresToStart)
    (ended : c'.isStarted → s.coresToStart ≤ 0)
    (spent : (r : Int) + max k 0 + (if c'.isCreating then 1 else 0) =
      max s.coresToStart 0 + if c.isCreating then 1 else 0) :
    Inv n { s with coresToStart := k, cores := s.cores.set i c', refused := s.refused + r } := by
  constructor
  · rw [State.boots, boots_set, same, Pool.set_self (boots_get here)]
    exact inv.assigned
  · have total := inv.budget.spent
    have count := Pool.countP_set (p := Core.isCreating) (y := c') here
    constructor
    · simp only [List.length_set]
      split at spent <;> split at spent <;> simp_all <;> omega
    · intro id there
      obtain rfl | old := Pool.mem_set here there
      · exact less.trans (ended rfl)
      · exact less.trans (inv.budget.ended id old)
    · have some := inv.budget.some
      simpa using some

/-- A core that goes on and leaves the budget alone. -/
theorem Inv.proceed (inv : Inv n s) (here : s.cores[i]? = some c) (same : c'.toBoot = c.toBoot)
    (ended : c'.isStarted → s.coresToStart ≤ 0) (idle : c.isCreating = false)
    (idle' : c'.isCreating = false) : Inv n { s with cores := s.cores.set i c' } := by
  apply inv.replace c' (r := 0) here same (Int.le_refl _) ended
  rw [idle, idle']
  simp

/-- `pthread_create` makes a core. -/
theorem Inv.join (inv : Inv n { s with refused := s.refused + 1 }) :
    Inv n { s with cores := s.cores ++ [.boot .enter] } := by
  constructor
  · rw [State.boots, List.map_append]
    exact inv.assigned.create
  · have total := inv.budget.spent
    constructor
    · simp only [List.length_append, List.countP_append, List.length_singleton,
        List.countP_singleton, Core.isCreating] at total ⊢
      simp at total ⊢
      omega
    · intro id there
      apply inv.budget.ended id
      simpa using there
    · simp

/-- A core on its way to its id. -/
theorem Inv.boot {g : Ids} {b b' : Boot} (inv : Inv n s) (here : s.cores[i]? = some (.boot b))
    (moved : b.step s.ids = some (g, b')) :
    Inv n { s with ids := g, cores := s.cores.set i (.boot b') } := by
  constructor
  · rw [State.boots, boots_set]
    exact inv.assigned.step (boots_get here) moved
  · have total := inv.budget.spent
    have count := Pool.countP_set (p := Core.isCreating) (y := .boot b') here
    constructor
    · simp only [List.length_set]
      simp only [Core.isCreating] at count
      simp at count
      omega
    · intro id there
      obtain new | old := Pool.mem_set here there
      · cases new
      · exact inv.budget.ended id old
    · have some := inv.budget.some
      simpa using some

theorem Inv.move (inv : Inv n s) (here : s.cores[i]? = some c) (moved : s.move i made c = some t) :
    Inv n t := by
  cases c with
  | boot b =>
      by_cases done : ∃ myid, b = .assigned myid
      · obtain ⟨myid, rfl⟩ := done
        cases moved
        exact inv.proceed here rfl (by simp [Core.isStarted]) rfl rfl
      · rw [State.move, Option.map_eq_some_iff] at moved
        · obtain ⟨⟨g, b'⟩, booted, rfl⟩ := moved
          exact inv.boot here booted
        · exact fun myid same => done ⟨myid, same⟩
  | test myid =>
      cases moved
      by_cases more : 0 < s.coresToStart
      · rw [if_pos more]
        exact inv.proceed here rfl (by simp [Core.isStarted]) rfl rfl
      · rw [if_neg more]
        exact inv.proceed here rfl (fun _ => Int.not_lt.mp more) rfl rfl
  | spawn myid =>
      cases moved
      by_cases more : 0 < s.coresToStart
      · rw [if_pos more]
        apply inv.replace (.create myid) (r := 0) here rfl
        · omega
        · simp [Core.isStarted]
        · simp only [Core.isCreating]
          simp
          omega
      · rw [if_neg more]
        apply inv.replace (.started myid) (r := 0) here rfl
        · omega
        · exact fun _ => Int.not_lt.mp more
        · simp only [Core.isCreating]
          simp
          omega
  | create myid =>
      have refused :
          Inv n { s with cores := s.cores.set i (.spawn myid), refused := s.refused + 1 } := by
        apply inv.replace (.spawn myid) (r := 1) here rfl (Int.le_refl _)
        · simp [Core.isStarted]
        · simp only [Core.isCreating]
          simp
          omega
      cases made with
      | true =>
          cases moved
          exact Inv.join (s := { s with cores := s.cores.set i (.spawn myid) }) refused
      | false =>
          cases moved
          exact refused
  | started => cases moved

theorem step_cases (moved : s.step a = some t) :
    (∀ b ∈ s.boots, b.isFailed = false) ∧
      ∃ c, s.cores[a.core]? = some c ∧ s.move a.core a.made c = some t := by
  rw [State.step] at moved
  by_cases ended : s.boots.any Boot.isFailed
  · rw [if_pos ended] at moved
    cases moved
  · rw [if_neg ended, Option.bind_eq_some_iff] at moved
    refine ⟨fun b member => ?_, moved⟩
    rw [← Bool.not_eq_true]
    exact fun failed => ended (List.any_eq_true.mpr ⟨b, member, failed⟩)

theorem Inv.step (inv : Inv n s) (moved : s.step a = some t) : Inv n t := by
  obtain ⟨_, c, here, moved⟩ := step_cases moved
  exact inv.move here moved

theorem inv_reach (hn : 1 ≤ n) (run : (machine n).Reach s) : Inv n s := by
  apply run.invariant
  · rintro _ rfl
    exact inv_start hn
  · intro _ _ _ _ inv _ moved
    exact inv.step moved

/-! ### What the invariant gives -/

theorem Inv.created (inv : Inv n s) : s.cores.length + s.refused ≤ n := by
  have := inv.budget.spent
  omega

theorem Inv.all (inv : Inv n s) (all : ∀ c ∈ s.cores, c.isStarted) :
    s.cores.length + s.refused = n := by
  obtain ⟨c, member⟩ := List.exists_mem_of_ne_nil _ inv.budget.some
  have spent : s.coresToStart ≤ 0 := by
    cases c with
    | started myid => exact inv.budget.ended myid member
    | boot | test | spawn | create => exact absurd (all _ member) (by simp [Core.isStarted])
  have none : s.cores.countP Core.isCreating = 0 := by
    rw [List.countP_eq_zero]
    intro c member
    cases c with
    | create myid => exact absurd (all _ member) (by simp [Core.isStarted])
    | boot | test | spawn | started => simp [Core.isCreating]
  have := inv.budget.spent
  omega

/-- There are no more ids than cores. -/
theorem Inv.numlpics_le (inv : Inv n s) : s.ids.numlpics ≤ s.cores.length := by
  have length := inv.assigned.initial.length_eq
  rw [List.length_range, taken] at length
  rw [← length]
  apply (List.length_filterMap_le _ _).trans
  rw [State.boots, List.length_map]

theorem move_lastid (inv : Inv n s) (here : s.cores[i]? = some c)
    (moved : s.move i made c = some t) : s.ids.lastid ≤ t.ids.lastid := by
  cases c with
  | boot b =>
      by_cases done : ∃ myid, b = .assigned myid
      · obtain ⟨myid, rfl⟩ := done
        cases moved
        exact Nat.le_refl _
      · rw [State.move, Option.map_eq_some_iff] at moved
        · obtain ⟨⟨g, b'⟩, booted, rfl⟩ := moved
          exact inv.assigned.lastid_le booted
        · exact fun myid same => done ⟨myid, same⟩
  | test | spawn =>
      cases moved
      exact Nat.le_refl _
  | create myid =>
      cases made <;> cases moved <;> exact Nat.le_refl _
  | started => cases moved

theorem Inv.ok (inv : Inv n s) (few : n ≤ maxPics) : Ok n s := by
  have initial := inv.assigned.initial
  have length : (taken s.boots).length = s.ids.numlpics := by
    rw [initial.length_eq, List.length_range]
  constructor
  · exact inv.created
  · exact inv.all
  · exact initial.nodup_iff.mpr List.nodup_range
  · intro id
    rw [initial.mem_iff, List.mem_range, length]
  · intro a t moved
    obtain ⟨_, c, here, moved⟩ := step_cases moved
    exact move_lastid inv here moved
  · intro all
    have some : s.boots ≠ [] := by
      rw [State.boots, Ne, List.map_eq_nil_iff]
      exact inv.budget.some
    have last := inv.assigned.lastid_eq some all
    constructor
    · rw [initial.mem_iff, List.mem_range]
      omega
    · intro id member
      rw [initial.mem_iff, List.mem_range] at member
      omega
  · intro b member id passed
    have below := inv.assigned.lt member (Boot.passed_id passed)
    have := inv.numlpics_le
    have := inv.created
    omega

/-! ### Too many cores -/

/-- New cores that have taken an id and not yet checked it. -/
def waiting (k : Nat) : List Core := (List.range k).map fun i => .boot (.check (i + 1))

/-- The first core is in its loop and has created `k` cores. -/
def spawned (n k : Nat) : State := ⟨(n : Int) - 1 - k, ⟨k + 1, 0⟩, .spawn 0 :: waiting k, 0⟩

theorem waiting_succ (k : Nat) : waiting (k + 1) = waiting k ++ [.boot (.check (k + 1))] := by
  rw [waiting, List.range_succ, List.map_append]
  rfl

theorem waiting_quiet (k : Nat) : ((waiting k).map Core.toBoot).any Boot.isFailed = false := by
  simp [waiting, Core.toBoot, Boot.isFailed]

theorem length_waiting (k : Nat) : (waiting k).length = k := by
  rw [waiting, List.length_map, List.length_range]

theorem step_of_move (quiet : s.boots.any Boot.isFailed = false) (here : s.cores[i]? = some c)
    (moved : s.move i made c = some t) : (machine n).step s ⟨i, made⟩ = some t := by
  simp only [machine, State.step, quiet, Bool.false_eq_true, if_false, here, Option.bind_some]
  exact moved

/-- One more round of the loop in `lrt_start`, and the new core takes its id. -/
theorem reach_spawned_succ {k : Nat} (run : (machine n).Reach (spawned n k)) (more : k + 1 < n) :
    (machine n).Reach (spawned n (k + 1)) := by
  have quiet := waiting_quiet k
  have spawn : (machine n).step (spawned n k) ⟨0, true⟩ =
      some ⟨(n : Int) - 1 - k - 1, ⟨k + 1, 0⟩, .create 0 :: waiting k, 0⟩ := by
    refine step_of_move (c := .spawn 0) quiet rfl ?_
    simp [State.move, spawned]
    omega
  have create : (machine n).step ⟨(n : Int) - 1 - k - 1, ⟨k + 1, 0⟩, 
        .create 0 :: waiting k, 0⟩ ⟨0, true⟩ =
      some ⟨(n : Int) - 1 - k - 1, ⟨k + 1, 0⟩, .spawn 0 :: (waiting k ++ [.boot .enter]), 0⟩ :=
    step_of_move (c := .create 0) quiet rfl rfl
  have enter : (machine n).step
      ⟨(n : Int) - 1 - k - 1, ⟨k + 1, 0⟩, .spawn 0 :: (waiting k ++ [.boot .enter]), 0⟩
        ⟨k + 1, true⟩ =
      some (spawned n (k + 1)) := by
    apply step_of_move (c := .boot .enter)
    · simpa [State.boots, Core.toBoot, Boot.isFailed] using quiet
    · simp [length_waiting]
    · simp [State.move, Boot.step, spawned, waiting_succ, length_waiting]
      omega
  exact .step (.step (.step run trivial spawn) trivial create) trivial enter

theorem reach_spawned {k : Nat} (hn : 2 ≤ n) (few : k < n) : (machine n).Reach (spawned n k) := by
  induction k with
  | zero =>
      have enter : (machine n).step (start n) ⟨0, true⟩ =
          some ⟨(n : Int) - 1, ⟨1, 0⟩, [.boot (.assigned 0)], 0⟩ := rfl
      have reset : (machine n).step ⟨(n : Int) - 1, ⟨1, 0⟩, [.boot (.assigned 0)], 0⟩ ⟨0, true⟩ =
          some ⟨(n : Int) - 1, ⟨1, 0⟩, [.test 0], 0⟩ := rfl
      have test : (machine n).step ⟨(n : Int) - 1, ⟨1, 0⟩, [.test 0], 0⟩ ⟨0, true⟩ =
          some (spawned n 0) := by
        apply step_of_move (c := .test 0) rfl rfl
        simp [State.move, spawned, waiting]
        omega
      exact .step (.step (.step (.init rfl) trivial enter) trivial reset) trivial test
  | succ k ih => exact reach_spawned_succ (ih (by omega)) few

/-- A core whose id is the number of entries of `lpics` passes the assertion. -/
theorem exists_passed (many : maxPics < n) : ∃ s, (machine n).Reach s ∧
    ∃ b ∈ s.boots, b.Passed maxPics := by
  have hn : 2 ≤ n := by
    simp only [maxPics] at many
    omega
  have run := reach_spawned hn many
  have checks : (spawned n maxPics).cores[maxPics]? = some (.boot (.check maxPics)) := by
    simp [spawned, waiting, maxPics]
  have passes : (machine n).step (spawned n maxPics) ⟨maxPics, true⟩ =
      some { spawned n maxPics with
        cores := (spawned n maxPics).cores.set maxPics (.boot (.load maxPics)) } :=
    step_of_move (waiting_quiet maxPics) checks rfl
  refine ⟨_, .step run trivial passes, .load maxPics, ?_, rfl⟩
  exact List.mem_map.mpr ⟨_, Pool.mem_self checks, rfl⟩

/-- Start-up is right for exactly the numbers of cores that `lpics` has entries for. -/
theorem startup_ok_iff (hn : 1 ≤ n) : (∀ s, (machine n).Reach s → Ok n s) ↔ n ≤ maxPics := by
  constructor
  · intro ok
    by_contra many
    obtain ⟨s, run, b, member, passed⟩ := exists_passed (Nat.lt_of_not_le many)
    exact absurd ((ok s run).bounded b member maxPics passed) (Nat.lt_irrefl _)
  · intro few s run
    exact (inv_reach hn run).ok few

theorem startup_ok_four : (∀ s, (machine 4).Reach s → Ok 4 s) ↔ 4 ≤ maxPics :=
  startup_ok_iff (by decide)

/-- With one core too many, some core gets the first id past `lpics` and goes on. -/
theorem exists_not_ok : ∃ s, (machine 65).Reach s ∧ (∃ b ∈ s.boots, b.Passed 64) ∧ ¬ Ok 65 s := by
  obtain ⟨s, run, b, member, passed⟩ := exists_passed (n := 65) (by decide)
  refine ⟨s, run, ⟨b, member, passed⟩, fun ok => ?_⟩
  exact absurd (ok.bounded b member maxPics passed) (Nat.lt_irrefl _)

end

end EBBLib.Pic.Startup
