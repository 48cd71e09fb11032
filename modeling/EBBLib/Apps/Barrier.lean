import EBBLib.Library.Barrier
import EBBLib.Library.Refinement
import Mathlib.Algebra.Order.BigOperators.Group.Finset
import Mathlib.Data.Finset.Card
import Mathlib.Data.Fintype.Fin
import Mathlib.Tactic.Ring

/-!
# The barrier of `bindtst.c`

The cores of `BindTst_start` call a sense-reversing barrier: a core flips its own sense, counts
itself in, and either is the last one, which resets the count and then changes the sense of the
barrier, or spins until the sense of the barrier is its own. The first core initialises the
barrier while the others wait for `cores` to change. Each access to the barrier is one step.

The first core takes the number of the parties from `EventMgr_NumEL()`, which is how many cores
have counted themselves in so far, and nothing makes it wait for the others. The results are
about the runs in which all cores that call the barrier are counted at that moment.
-/

namespace EBBLib.BindTst

/-- `barrier_type`. -/
structure BarrierType where
  parties : Int
  count : Int
  sense : Int
deriving DecidableEq, Repr

/-- `init_barrier`. -/
def init_barrier (c : Int) : BarrierType := { parties := c, count := c, sense := 0 }

/-- `!x`. -/
def lnot (x : Int) : Int := if x = 0 then 1 else 0

/-- Where a core is. -/
inductive Pc where
  | start
  /-- Has initialised the barrier and not yet set `cores`. -/
  | publishing
  /-- Outside of `barrier`. -/
  | outside
  /-- Has changed its sense. -/
  | arriving
  /-- Was the last one. -/
  | resetting
  | releasing
  | spinning
deriving DecidableEq, Repr

/-- A core with its variable `sense`. The last two fields count its calls of `barrier` and its
returns. -/
structure Core where
  pc : Pc
  sense : Int
  entered : Nat
  left : Nat
deriving DecidableEq, Repr

/-- `pic.numlpics`, `bar`, `cores` and what each core does. -/
structure State (n : Nat) where
  numlpics : Nat
  bar : BarrierType
  cores : Int
  core : Fin n → Core

inductive Action (n : Nat) where
  /-- A core counts itself in. Its id is the number of the cores before it. -/
  | allocateCoreId
  /-- `init_barrier`. -/
  | init (c : Fin n)
  | publish (c : Fin n)
  /-- A test of `cores`. -/
  | await (c : Fin n)
  | enter (c : Fin n)
  /-- `__sync_fetch_and_sub`. -/
  | arrive (c : Fin n)
  | reset (c : Fin n)
  | release (c : Fin n)
  /-- A test of the sense. -/
  | spin (c : Fin n)
deriving DecidableEq, Repr

namespace State

variable {n : Nat} (s : State n)

def setCore (c : Fin n) (x : Core) : State n := { s with core := Function.update s.core c x }

def goto (c : Fin n) (pc : Pc) : State n := s.setCore c { s.core c with pc }

/-- A core returns from `barrier`. -/
def leave (c : Fin n) : State n :=
  s.setCore c { s.core c with pc := .outside, left := (s.core c).left + 1 }

/-- `EventMgr_NumEL`. -/
def eventMgr_NumEL : Nat := s.numlpics

/-- A core that is counted has not yet begun. -/
def Starting (c : Fin n) : Prop := (s.core c).pc = .start ∧ c.val < s.numlpics

instance (c : Fin n) : Decidable (s.Starting c) := inferInstanceAs (Decidable (_ ∧ _))

def step : Action n → Option (State n)
  | .allocateCoreId =>
      if s.numlpics < n then some { s with numlpics := s.numlpics + 1 } else none
  | .init c =>
      if s.Starting c ∧ c.val = 0 then
        some ({ s with bar := init_barrier s.eventMgr_NumEL }.goto c .publishing)
      else none
  | .publish c =>
      if (s.core c).pc = .publishing then
        some ({ s with cores := s.eventMgr_NumEL }.goto c .outside)
      else none
  | .await c =>
      if s.Starting c ∧ c.val ≠ 0 then
        some (if s.cores = 0 then s else s.goto c .outside)
      else none
  | .enter c =>
      if (s.core c).pc = .outside then
        some (s.setCore c
          { s.core c with
            pc := .arriving
            sense := lnot (s.core c).sense
            entered := (s.core c).entered + 1 })
      else none
  | .arrive c =>
      if (s.core c).pc = .arriving then
        some ({ s with bar := { s.bar with count := s.bar.count - 1 } }.goto c
          (if s.bar.count = 1 then .resetting else .spinning))
      else none
  | .reset c =>
      if (s.core c).pc = .resetting then
        some ({ s with bar := { s.bar with count := s.bar.parties } }.goto c .releasing)
      else none
  | .release c =>
      if (s.core c).pc = .releasing then
        some ({ s with bar := { s.bar with sense := (s.core c).sense } }.leave c)
      else none
  | .spin c =>
      if (s.core c).pc = .spinning then
        some (if s.bar.sense = (s.core c).sense then s.leave c else s)
      else none

/-- The calls of the barrier. -/
def calls : Barrier.Calls (Fin n) where
  entered c := (s.core c).entered
  left c := (s.core c).left

end State

/-- Nothing is initialised, and every core is before its first statement. -/
def boot (n : Nat) : State n where
  numlpics := 0
  bar := { parties := 0, count := 0, sense := 0 }
  cores := 0
  core _ := { pc := .start, sense := 0, entered := 0, left := 0 }

def machine (n : Nat) : Machine (State n) (Action n) where
  init s := s = boot n
  step := State.step

/-- The first core reads `EventMgr_NumEL()` when all cores have counted themselves in. -/
def AllCounted {n : Nat} (s : State n) : Action n → Prop
  | .init _ => s.eventMgr_NumEL = n
  | _ => True

instance {n : Nat} (s : State n) : (a : Action n) → Decidable (AllCounted s a)
  | .init _ => inferInstanceAs (Decidable (_ = _))
  | .allocateCoreId | .publish _ | .await _ | .enter _ | .arrive _ | .reset _ | .release _
  | .spin _ => .isTrue trivial

/-- The calls and the returns that a step makes. -/
def shows {n : Nat} (s : State n) : Action n → State n → List (Barrier.Event (Fin n))
  | .enter c, _ => [.enter c]
  | .release c, _ => [.leave c]
  | .spin c, _ => if s.bar.sense = (s.core c).sense then [.leave c] else []
  | _, _ => []

/-! ### What holds in round `r` -/

/-- A core counts itself in and waits for the next change of the sense. -/
def Core.Waits (x : Core) (r : Nat) : Prop := x.pc = .spinning ∧ x.entered = r + 1

/-- The last core of a round. -/
def Core.Last (x : Core) : Prop := x.pc = .resetting ∨ x.pc = .releasing

/-- A core in round `r`. One that spins may still have to see the last change of the sense. -/
def Core.Fits (x : Core) (r : Nat) : Prop :=
  x.sense = (x.entered % 2 : Nat) ∧
    match x.pc with
    | .start | .outside => x.entered = r ∧ x.left = r
    | .publishing => False
    | .arriving | .resetting | .releasing => x.entered = r + 1 ∧ x.left = r
    | .spinning => x.entered = r + 1 ∧ x.left = r ∨ x.entered = r ∧ x.left + 1 = r

instance (x : Core) (r : Nat) : Decidable (x.Waits r) := inferInstanceAs (Decidable (_ ∧ _))

section

variable {n : Nat} {s t : State n} {r : Nat} {c d : Fin n} {x : Core} {a : Action n}

def State.waiting (s : State n) (r : Nat) : Finset (Fin n) :=
  Finset.univ.filter fun c => (s.core c).Waits r

/-- The first core has set `cores`. The count says how many cores are still to come. -/
structure Running (s : State n) (r : Nat) : Prop where
  numlpics : s.numlpics = n
  cores : s.cores = n
  parties : s.bar.parties = n
  sense : s.bar.sense = (r % 2 : Nat)
  fits : ∀ c, (s.core c).Fits r
  first : ∀ c, c.val = 0 → (s.core c).pc ≠ .start
  count : (∀ c, ¬ (s.core c).Last) → 0 < s.bar.count ∧ s.bar.count + (s.waiting r).card = n
  last : ∀ c, (s.core c).Last → s.waiting r = Finset.univ.erase c ∧
    s.bar.count = if (s.core c).pc = .resetting then 0 else n

/-- The first core has not yet set `cores`. -/
structure Booting (s : State n) : Prop where
  numlpics : s.numlpics ≤ n
  cores : s.cores = 0
  fresh : ∀ c, (s.core c).sense = 0 ∧ (s.core c).entered = 0 ∧ (s.core c).left = 0
  pc : ∀ c, (s.core c).pc = .start ∨
    c.val = 0 ∧ (s.core c).pc = .publishing ∧ s.numlpics = n ∧ s.bar = init_barrier n
  bar : s.bar = (boot n).bar ∨ s.bar = init_barrier n

def Inv (s : State n) : Prop := Booting s ∨ ∃ r, Running s r

@[simp] theorem setCore_core :
    (s.setCore c x).core d = if d = c then x else s.core d :=
  Function.update_apply ..

@[simp] theorem setCore_numlpics : (s.setCore c x).numlpics = s.numlpics := rfl

@[simp] theorem setCore_bar : (s.setCore c x).bar = s.bar := rfl

@[simp] theorem setCore_cores : (s.setCore c x).cores = s.cores := rfl

/-- What holds of each core, after one has changed. -/
theorem core_cases {P : Fin n → Core → Prop} (here : P c x) (others : ∀ d, d ≠ c → P d (s.core d))
    (d : Fin n) : P d ((s.setCore c x).core d) := by
  rw [setCore_core]
  split_ifs with same
  · exact same ▸ here
  · exact others d same

theorem mem_waiting : c ∈ s.waiting r ↔ (s.core c).Waits r := by simp [State.waiting]

theorem waiting_setCore : (s.setCore c x).waiting r =
    if x.Waits r then insert c (s.waiting r) else (s.waiting r).erase c := by
  ext d
  rw [mem_waiting, setCore_core]
  by_cases same : d = c
  · subst same
    rw [if_pos rfl]
    split_ifs <;> simp [*]
  · rw [if_neg same, ← mem_waiting]
    split_ifs <;> simp [same]

/-- While a core is neither waiting nor the last one, there is no last one. -/
theorem Running.no_last (h : Running s r) (here : ¬ (s.core c).Waits r)
    (other : ¬ (s.core c).Last) : ∀ d, ¬ (s.core d).Last := by
  intro d last
  have apart : c ≠ d := by
    rintro rfl
    exact other last
  have member : c ∈ s.waiting r := by
    rw [(h.last d last).1]
    exact Finset.mem_erase.mpr ⟨apart, Finset.mem_univ c⟩
  exact here (mem_waiting.mp member)

/-- A core goes on, without waiting. -/
theorem Running.move (h : Running s r) (here : ¬ (s.core c).Waits r) (other : ¬ (s.core c).Last)
    (fits : x.Fits r) (waits : ¬ x.Waits r) (last : ¬ x.Last) (started : x.pc ≠ .start) :
    Running (s.setCore c x) r := by
  have waiting : (s.setCore c x).waiting r = s.waiting r := by
    rw [waiting_setCore, if_neg waits, Finset.erase_eq_of_notMem fun member =>
      here (mem_waiting.mp member)]
  have none : ∀ d, ¬ ((s.setCore c x).core d).Last :=
    core_cases (P := fun _ y => ¬ y.Last) last fun d _ => h.no_last here other d
  refine ⟨h.numlpics, h.cores, h.parties, h.sense,
    core_cases (P := fun _ y => y.Fits r) fits fun d _ => h.fits d,
    core_cases (P := fun d y => d.val = 0 → y.pc ≠ .start) (fun _ => started) fun d _ => h.first d,
    fun _ => ?_, fun d isLast => absurd isLast (none d)⟩
  rw [waiting]
  exact h.count (h.no_last here other)

/-! ### The steps of a round -/

theorem lnot_mod (k : Nat) : lnot ((k % 2 : Nat) : Int) = ((k + 1) % 2 : Nat) := by
  obtain even | odd := Nat.mod_two_eq_zero_or_one k
  · simp [lnot, even, Nat.add_mod]
  · simp [lnot, odd, Nat.add_mod]

theorem Running.enter (h : Running s r) (at_ : (s.core c).pc = .outside) :
    Running (s.setCore c
      { s.core c with
        pc := .arriving
        sense := lnot (s.core c).sense
        entered := (s.core c).entered + 1 }) r := by
  have fits := h.fits c
  simp only [Core.Fits, at_] at fits
  obtain ⟨sense, entered, left⟩ := fits
  refine h.move (by simp [Core.Waits, at_]) (by simp [Core.Last, at_]) ?_ (by simp [Core.Waits])
    (by simp [Core.Last]) (by simp)
  refine ⟨?_, by rw [entered], left⟩
  rw [sense, lnot_mod]

theorem Running.arrive (h : Running s r) (at_ : (s.core c).pc = .arriving) :
    Running ({ s with bar := { s.bar with count := s.bar.count - 1 } }.goto c
      (if s.bar.count = 1 then .resetting else .spinning)) r := by
  have here : ¬ (s.core c).Waits r := by simp [Core.Waits, at_]
  have noLast := h.no_last here (by simp [Core.Last, at_])
  obtain ⟨positive, count⟩ := h.count noLast
  have new : c ∉ s.waiting r := fun member => here (mem_waiting.mp member)
  obtain ⟨sense, entered, left⟩ : (s.core c).sense = ((s.core c).entered % 2 : Nat) ∧
      (s.core c).entered = r + 1 ∧ (s.core c).left = r := by
    simpa only [Core.Fits, at_] using h.fits c
  split_ifs with one
  · -- All others are waiting.
    let x : Core := { s.core c with pc := .resetting }
    have same : (s.setCore c x).waiting r = s.waiting r := by
      rw [waiting_setCore, if_neg (by simp [x, Core.Waits]), Finset.erase_eq_of_notMem new]
    have all : s.waiting r = Finset.univ.erase c := by
      refine Finset.eq_of_subset_of_card_le (fun d member => ?_) ?_
      · refine Finset.mem_erase.mpr ⟨?_, Finset.mem_univ d⟩
        rintro rfl
        exact new member
      · rw [Finset.card_erase_of_mem (Finset.mem_univ c), Finset.card_univ, Fintype.card_fin]
        omega
    refine ⟨h.numlpics, h.cores, h.parties, h.sense,
      core_cases (P := fun _ y => y.Fits r) ⟨sense, entered, left⟩ fun d _ => h.fits d,
      core_cases (P := fun d y => d.val = 0 → y.pc ≠ .start) (by simp) fun d _ => h.first d,
      fun none => absurd ?_ (none c), core_cases (P := fun d y => y.Last → _ ∧ _ = _)
        (fun _ => ⟨same.trans all, ?_⟩) fun d _ isLast => absurd isLast (noLast d)⟩
    · simp [State.goto, Core.Last]
    · simp [State.goto, one]
  · let x : Core := { s.core c with pc := .spinning }
    have more : ((s.setCore c x).waiting r).card = (s.waiting r).card + 1 := by
      rw [waiting_setCore, if_pos ⟨rfl, entered⟩, Finset.card_insert_of_notMem new]
    refine ⟨h.numlpics, h.cores, h.parties, h.sense,
      core_cases (P := fun _ y => y.Fits r) ⟨sense, .inl ⟨entered, left⟩⟩ fun d _ => h.fits d,
      core_cases (P := fun d y => d.val = 0 → y.pc ≠ .start) (by simp) fun d _ => h.first d,
      fun _ => ?_, core_cases (P := fun d y => y.Last → _ ∧ _ = _) (by simp [Core.Last])
        fun d _ isLast => absurd isLast (noLast d)⟩
    show 0 < s.bar.count - 1 ∧ s.bar.count - 1 + ((s.setCore c x).waiting r).card = n
    omega

/-- The others of a last core. -/
theorem Running.others (h : Running s r) (last : (s.core c).Last) (apart : d ≠ c) :
    (s.core d).Waits r := by
  rw [← mem_waiting, (h.last c last).1]
  exact Finset.mem_erase.mpr ⟨apart, Finset.mem_univ d⟩

theorem Running.not_last (h : Running s r) (last : (s.core c).Last) (apart : d ≠ c) :
    ¬ (s.core d).Last := by
  have waits := (h.others last apart).1
  simp [Core.Last, waits]

theorem Running.reset (h : Running s r) (at_ : (s.core c).pc = .resetting) :
    Running ({ s with bar := { s.bar with count := s.bar.parties } }.goto c .releasing) r := by
  have last : (s.core c).Last := .inl at_
  obtain ⟨sense, entered, left⟩ : (s.core c).sense = ((s.core c).entered % 2 : Nat) ∧
      (s.core c).entered = r + 1 ∧ (s.core c).left = r := by
    simpa only [Core.Fits, at_] using h.fits c
  let x : Core := { s.core c with pc := .releasing }
  have new : c ∉ s.waiting r := fun member => by
    have := (mem_waiting.mp member).1
    rw [at_] at this
    cases this
  have same : (s.setCore c x).waiting r = s.waiting r := by
    rw [waiting_setCore, if_neg (by simp [x, Core.Waits]), Finset.erase_eq_of_notMem new]
  refine ⟨h.numlpics, h.cores, h.parties, h.sense,
    core_cases (P := fun _ y => y.Fits r) ⟨sense, entered, left⟩ fun d _ => h.fits d,
    core_cases (P := fun d y => d.val = 0 → y.pc ≠ .start) (by simp) fun d _ => h.first d,
    fun none => absurd ?_ (none c), core_cases (P := fun d y => y.Last → _ ∧ _ = _)
      (fun _ => ⟨same.trans (h.last c last).1, ?_⟩)
      fun d apart isLast => absurd isLast (h.not_last last apart)⟩
  · simp [State.goto, Core.Last]
  · simp [State.goto, h.parties]

/-- The last core of a round starts the next one. -/
theorem Running.release (h : Running s r) (at_ : (s.core c).pc = .releasing) :
    Running ({ s with bar := { s.bar with sense := (s.core c).sense } }.leave c) (r + 1) := by
  have last : (s.core c).Last := .inr at_
  obtain ⟨sense, entered, left⟩ : (s.core c).sense = ((s.core c).entered % 2 : Nat) ∧
      (s.core c).entered = r + 1 ∧ (s.core c).left = r := by
    simpa only [Core.Fits, at_] using h.fits c
  have count : s.bar.count = n := by simpa [at_] using (h.last c last).2
  let x : Core := { s.core c with pc := .outside, left := (s.core c).left + 1 }
  have none : ∀ d, ¬ ((s.setCore c x).core d).Last :=
    core_cases (P := fun _ y => ¬ y.Last) (by simp [x, Core.Last])
      fun d apart => h.not_last last apart
  have nobody : (s.setCore c x).waiting (r + 1) = ∅ := by
    refine Finset.eq_empty_of_forall_notMem fun d member => ?_
    have waits := mem_waiting.mp member
    revert waits
    refine core_cases (P := fun _ y => ¬ y.Waits (r + 1)) (by simp [x, Core.Waits])
      (fun d apart waits => ?_) d
    have := (h.others last apart).2
    have := waits.2
    omega
  have positive : 0 < n := Nat.zero_lt_of_lt c.isLt
  refine ⟨h.numlpics, h.cores, h.parties, by simp [State.leave, sense, entered],
    core_cases (P := fun _ y => y.Fits (r + 1)) ⟨sense, entered, by rw [left]⟩ fun d apart => ?_,
    core_cases (P := fun d y => d.val = 0 → y.pc ≠ .start) (by simp) fun d _ => h.first d,
    fun _ => ?_, fun d isLast => absurd isLast (none d)⟩
  · -- The others still have to see the change.
    have waits := h.others last apart
    have fits := h.fits d
    simp only [Core.Fits, waits.1] at fits ⊢
    have entered := waits.2
    exact ⟨fits.1, .inr ⟨entered, by omega⟩⟩
  · show 0 < s.bar.count ∧ s.bar.count + ((s.setCore c x).waiting (r + 1)).card = n
    rw [nobody, count, Finset.card_empty]
    omega

/-- A core that sees its own sense was released by the last change. -/
theorem Running.released (h : Running s r) (at_ : (s.core c).pc = .spinning)
    (same : s.bar.sense = (s.core c).sense) : (s.core c).entered = r ∧ (s.core c).left + 1 = r := by
  have fits := h.fits c
  simp only [Core.Fits, at_] at fits
  obtain ⟨sense, ⟨entered, _⟩ | released⟩ := fits
  · rw [h.sense, sense, entered] at same
    omega
  · exact released

theorem Running.spin (h : Running s r) (at_ : (s.core c).pc = .spinning)
    (same : s.bar.sense = (s.core c).sense) : Running (s.leave c) r := by
  obtain ⟨entered, left⟩ := h.released at_ same
  refine h.move (fun waits => ?_) (by simp [Core.Last, at_]) ⟨(h.fits c).1, entered, left⟩
    (by simp [Core.Waits]) (by simp [Core.Last]) (by simp)
  have := waits.2
  omega

/-! ### The start -/

theorem Booting.publish (h : Booting s) (at_ : (s.core c).pc = .publishing) :
    Running ({ s with cores := s.eventMgr_NumEL }.goto c .outside) 0 := by
  obtain pc | ⟨zero, _, all, bar⟩ := h.pc c
  · rw [at_] at pc
    cases pc
  have others : ∀ d, d ≠ c → (s.core d).pc = .start := by
    intro d apart
    obtain pc | ⟨zero', _⟩ := h.pc d
    · exact pc
    · exact absurd (Fin.ext (zero'.trans zero.symm)) apart
  let x : Core := { s.core c with pc := .outside }
  have none : ∀ d, ¬ ((s.setCore c x).core d).Last :=
    core_cases (P := fun _ y => ¬ y.Last) (by simp [x, Core.Last])
      fun d apart => by simp [Core.Last, others d apart]
  have nobody : (s.setCore c x).waiting 0 = ∅ := by
    refine Finset.eq_empty_of_forall_notMem fun d member => ?_
    have waits := mem_waiting.mp member
    revert waits
    exact core_cases (P := fun _ y => ¬ y.Waits 0) (by simp [x, Core.Waits])
      (fun d apart => by simp [Core.Waits, others d apart]) d
  refine ⟨all, congrArg Nat.cast all, by simp [State.goto, bar, init_barrier],
    by simp [State.goto, bar, init_barrier],
    core_cases (P := fun _ y => y.Fits 0) ?_ fun d apart => ?_,
    core_cases (P := fun d y => d.val = 0 → y.pc ≠ .start) (by simp) fun d apart zero' => ?_,
    fun _ => ?_, fun d isLast => absurd isLast (none d)⟩
  · obtain ⟨sense, entered, left⟩ := h.fresh c
    simp [Core.Fits, sense, entered, left]
  · obtain ⟨sense, entered, left⟩ := h.fresh d
    simp [Core.Fits, sense, entered, left, others d apart]
  · exact absurd (Fin.ext (zero'.trans zero.symm)) apart
  · show 0 < s.bar.count ∧ s.bar.count + ((s.setCore c x).waiting 0).card = n
    have positive : 0 < n := Nat.zero_lt_of_lt c.isLt
    rw [nobody, bar]
    simpa [init_barrier] using positive

theorem Booting.init (h : Booting s) (zero : c.val = 0) (all : s.eventMgr_NumEL = n) :
    Booting ({ s with bar := init_barrier s.eventMgr_NumEL }.goto c .publishing) := by
  rw [all]
  refine ⟨h.numlpics, h.cores, core_cases
    (P := fun _ y => y.sense = 0 ∧ y.entered = 0 ∧ y.left = 0) (h.fresh c)
    fun d _ => h.fresh d, core_cases (P := fun d y => y.pc = .start ∨ d.val = 0 ∧
      y.pc = .publishing ∧ _ = _ ∧ _ = _) (.inr ⟨zero, rfl, all, rfl⟩) fun d apart => ?_, .inr rfl⟩
  obtain pc | ⟨zero', _⟩ := h.pc d
  · exact .inl pc
  · exact absurd (Fin.ext (zero'.trans zero.symm)) apart

/-! ### Every step -/

theorem goto_calls {pc : Pc} {bar : BarrierType} {cores : Int} :
    (State.goto { s with bar, cores } c pc).calls = s.calls := by
  refine congrArg₂ Barrier.Calls.mk (funext fun d => ?_) (funext fun d => ?_)
  · by_cases same : d = c <;> simp [State.goto, same]
  · by_cases same : d = c <;> simp [State.goto, same]

theorem leave_calls {bar : BarrierType} :
    (State.leave { s with bar } c).calls = s.calls.leave c := by
  refine congrArg₂ Barrier.Calls.mk (funext fun d => ?_) (funext fun d => ?_)
  · by_cases same : d = c <;> simp [State.leave, same, State.calls]
  · by_cases same : d = c
    · subst same
      simp [State.leave, State.calls]
    · simp [State.leave, State.calls, same]

/-- A core that may leave finds that all have entered. -/
theorem leave_allowed (h : Running s r) (entered : (s.core c).entered = (s.core c).left + 1)
    (low : (s.core c).entered ≤ r ∨ ∀ d, d ≠ c → (s.core d).Waits r)
    (high : (s.core c).entered ≤ r + 1) :
    s.calls.step (.leave c) = some (s.calls.leave c) := by
  refine if_pos ⟨entered, fun d => ?_⟩
  show (s.core c).entered ≤ (s.core d).entered
  obtain low | waits := low
  · have fits := (h.fits d).2
    cases at_ : (s.core d).pc <;> simp only [at_] at fits <;> omega
  · by_cases same : d = c
    · rw [same]
    · have := (waits d same).2
      omega

theorem Booting.allocateCoreId (h : Booting s) (more : s.numlpics < n) :
    Booting { s with numlpics := s.numlpics + 1 } := by
  refine ⟨more, h.cores, h.fresh, fun c => (h.pc c).imp_right fun ⟨_, _, all, _⟩ => ?_, h.bar⟩
  omega

theorem Booting.step (h : Booting s) (counted : AllCounted s a) (moved : s.step a = some t) :
    shows s a t = [] ∧ t.calls = s.calls ∧ Inv t := by
  have waits : ∀ c, (s.core c).pc = .start ∨ (s.core c).pc = .publishing := fun c =>
    (h.pc c).imp_right fun there => there.2.1
  cases a with
  | allocateCoreId =>
      obtain ⟨more, rfl⟩ := Machine.of_guard moved
      exact ⟨rfl, rfl, .inl (h.allocateCoreId more)⟩
  | init c =>
      obtain ⟨⟨_, zero⟩, rfl⟩ := Machine.of_guard moved
      exact ⟨rfl, goto_calls, .inl (h.init zero counted)⟩
  | publish c =>
      obtain ⟨at_, rfl⟩ := Machine.of_guard moved
      exact ⟨rfl, goto_calls, .inr ⟨0, h.publish at_⟩⟩
  | await c =>
      obtain ⟨_, rfl⟩ := Machine.of_guard moved
      rw [if_pos h.cores]
      exact ⟨rfl, rfl, .inl h⟩
  | enter c | arrive c | reset c | release c | spin c =>
      have at_ := (Option.ite_none_right_eq_some.mp moved).1
      obtain start | publishing := waits c <;> simp_all

theorem Running.step (h : Running s r) (moved : s.step a = some t) :
    (Barrier.calls (Fin n)).exec s.calls (shows s a t) = some t.calls ∧ ∃ r, Running t r := by
  cases a with
  | allocateCoreId =>
      obtain ⟨more, rfl⟩ := Machine.of_guard moved
      exact absurd h.numlpics (Nat.ne_of_lt more)
  | init c =>
      obtain ⟨⟨⟨start, _⟩, zero⟩, rfl⟩ := Machine.of_guard moved
      exact absurd start (h.first c zero)
  | publish c =>
      obtain ⟨at_, rfl⟩ := Machine.of_guard moved
      have fits := (h.fits c).2
      simp [at_] at fits
  | await c =>
      obtain ⟨⟨⟨start, _⟩, _⟩, rfl⟩ := Machine.of_guard moved
      have positive : 0 < n := Nat.zero_lt_of_lt c.isLt
      have set : s.cores ≠ 0 := by
        rw [h.cores]
        omega
      have fits := h.fits c
      simp only [Core.Fits, start] at fits
      rw [if_neg set]
      refine ⟨congrArg some goto_calls.symm, r, h.move (by simp [Core.Waits, start])
        (by simp [Core.Last, start]) ?_ (by simp [Core.Waits]) (by simp [Core.Last]) (by simp)⟩
      exact fits
  | enter c =>
      obtain ⟨at_, rfl⟩ := Machine.of_guard moved
      refine ⟨Machine.exec_one.mpr ?_, r, h.enter at_⟩
      have fits := (h.fits c).2
      simp only [at_] at fits
      refine (if_pos (fits.1.trans fits.2.symm)).trans (congrArg some ?_)
      refine congrArg₂ Barrier.Calls.mk (funext fun d => ?_) (funext fun d => ?_) <;>
        by_cases same : d = c <;> simp [same, State.calls]
  | arrive c =>
      obtain ⟨at_, rfl⟩ := Machine.of_guard moved
      exact ⟨congrArg some goto_calls.symm, r, h.arrive at_⟩
  | reset c =>
      obtain ⟨at_, rfl⟩ := Machine.of_guard moved
      exact ⟨congrArg some goto_calls.symm, r, h.reset at_⟩
  | release c =>
      obtain ⟨at_, rfl⟩ := Machine.of_guard moved
      have fits := (h.fits c).2
      simp only [at_] at fits
      refine ⟨Machine.exec_one.mpr ?_, r + 1, h.release at_⟩
      rw [leave_calls]
      exact leave_allowed h (by omega) (.inr fun d apart => h.others (.inr at_) apart) (by omega)
  | spin c =>
      obtain ⟨at_, rfl⟩ := Machine.of_guard moved
      by_cases same : s.bar.sense = (s.core c).sense
      · obtain ⟨entered, left⟩ := h.released at_ same
        rw [if_pos same]
        refine ⟨?_, r, h.spin at_ same⟩
        rw [shows, if_pos same]
        refine Machine.exec_one.mpr ?_
        rw [show (s.leave c).calls = s.calls.leave c from leave_calls]
        exact leave_allowed h (by omega) (.inl (by omega)) (by omega)
      · rw [if_neg same]
        refine ⟨?_, r, h⟩
        rw [shows, if_neg same]
        rfl

/-- Each step keeps the invariant, and its calls and returns are those of a barrier. -/
theorem Inv.step (h : Inv s) (counted : AllCounted s a) (moved : s.step a = some t) :
    (Barrier.calls (Fin n)).exec s.calls (shows s a t) = some t.calls ∧ Inv t := by
  obtain booting | ⟨r, running⟩ := h
  · obtain ⟨silent, same, after⟩ := booting.step counted moved
    rw [silent, same]
    exact ⟨rfl, after⟩
  · obtain ⟨answered, after⟩ := running.step moved
    exact ⟨answered, .inr after⟩

theorem boot_inv : Inv (boot n) :=
  .inl ⟨Nat.zero_le n, rfl, fun _ => ⟨rfl, rfl, rfl⟩, fun _ => .inl rfl, .inl rfl⟩

theorem reach_inv (reached : (machine n).ReachVia AllCounted s) : Inv s := by
  induction reached with
  | init start => exact start ▸ boot_inv
  | step _ counted moved ih => exact (ih.step counted moved).2

/-! ### Progress -/

/-- The accesses that a core still has to make until it is outside. -/
def Pc.work : Pc → Nat
  | .outside => 0
  | .publishing | .releasing | .spinning => 1
  | .start | .resetting => 2
  | .arriving => 3

/-- The cores that are still to be counted, too. -/
def State.work (s : State n) : Nat := n - s.numlpics + ∑ c, (s.core c).pc.work

theorem work_setCore {bar : BarrierType} {cores : Int} (less : x.pc.work < (s.core c).pc.work) :
    (State.setCore { s with bar, cores } c x).work < s.work := by
  refine Nat.add_lt_add_left
    (Finset.sum_lt_sum (fun d _ => ?_) ⟨c, Finset.mem_univ c, by simpa using less⟩) _
  by_cases same : d = c
  · subst same
    simpa using less.le
  · simp [same]

theorem work_allocateCoreId (more : s.numlpics < n) :
    State.work { s with numlpics := s.numlpics + 1 } < s.work :=
  Nat.add_lt_add_right (by simp only; omega) _

/-- A step changes nothing, or brings its core nearer to the outside, or is a new call. -/
theorem work_step (moved : s.step a = some t) : t = s ∨ t.work < s.work ∨ ∃ c, a = .enter c := by
  cases a with
  | enter c => exact .inr (.inr ⟨c, rfl⟩)
  | allocateCoreId =>
      obtain ⟨more, rfl⟩ := Machine.of_guard moved
      exact .inr (.inl (work_allocateCoreId more))
  | init c =>
      obtain ⟨⟨⟨at_, _⟩, _⟩, rfl⟩ := Machine.of_guard moved
      exact .inr (.inl (work_setCore (by simp [at_, Pc.work])))
  | publish c =>
      obtain ⟨at_, rfl⟩ := Machine.of_guard moved
      exact .inr (.inl (work_setCore (by simp [at_, Pc.work])))
  | await c =>
      obtain ⟨⟨⟨at_, _⟩, _⟩, rfl⟩ := Machine.of_guard moved
      split_ifs
      · exact .inl rfl
      · exact .inr (.inl (work_setCore (by simp [at_, Pc.work])))
  | arrive c =>
      obtain ⟨at_, rfl⟩ := Machine.of_guard moved
      refine .inr (.inl (work_setCore ?_))
      split_ifs <;> simp [at_, Pc.work]
  | reset c =>
      obtain ⟨at_, rfl⟩ := Machine.of_guard moved
      exact .inr (.inl (work_setCore (by simp [at_, Pc.work])))
  | release c =>
      obtain ⟨at_, rfl⟩ := Machine.of_guard moved
      exact .inr (.inl (work_setCore (by simp [at_, Pc.work])))
  | spin c =>
      obtain ⟨at_, rfl⟩ := Machine.of_guard moved
      split_ifs
      · exact .inr (.inl (work_setCore (by simp [at_, Pc.work])))
      · exact .inl rfl

/-- A core can go on when it is not outside, unless it waits for the sense to change. -/
theorem Running.goes_on (h : Running s r) (inside : (s.core c).pc ≠ .outside)
    (moves : ¬ (s.core c).Waits r) :
    ∃ a t, AllCounted s a ∧ s.step a = some t ∧ t.work < s.work := by
  have positive : 0 < n := Nat.zero_lt_of_lt c.isLt
  have fits := h.fits c
  cases at_ : (s.core c).pc with
  | outside => exact absurd at_ inside
  | publishing => simp [Core.Fits, at_] at fits
  | start =>
      have other : c.val ≠ 0 := fun zero => h.first c zero at_
      have set : s.cores ≠ 0 := by
        rw [h.cores]
        omega
      have counted : s.Starting c := ⟨at_, c.isLt.trans_eq h.numlpics.symm⟩
      exact ⟨.await c, _, trivial, if_pos ⟨counted, other⟩, by
        rw [if_neg set]
        exact work_setCore (by simp [at_, Pc.work])⟩
  | arriving =>
      refine ⟨.arrive c, _, trivial, if_pos at_, work_setCore ?_⟩
      split_ifs <;> simp [at_, Pc.work]
  | resetting => exact ⟨.reset c, _, trivial, if_pos at_, work_setCore (by simp [at_, Pc.work])⟩
  | releasing => exact ⟨.release c, _, trivial, if_pos at_, work_setCore (by simp [at_, Pc.work])⟩
  | spinning =>
      simp only [Core.Fits, at_] at fits
      obtain ⟨sense, ⟨entered, _⟩ | ⟨entered, _⟩⟩ := fits
      · exact absurd ⟨at_, entered⟩ moves
      · have same : s.bar.sense = (s.core c).sense := by rw [h.sense, sense, entered]
        exact ⟨.spin c, _, trivial, if_pos at_, by
          rw [if_pos same]
          exact work_setCore (by simp [at_, Pc.work])⟩

/-- When all cores have made equally many calls, they have all returned or some core goes on. -/
theorem Inv.returns {k : Nat} (h : Inv s) (calls : ∀ c, (s.core c).entered = k) :
    (∀ c, (s.core c).pc = .outside ∧ (s.core c).left = k) ∨
      ∃ a t, AllCounted s a ∧ s.step a = some t ∧ t.work < s.work := by
  obtain booting | ⟨r, h⟩ := h
  · obtain rfl | positive := Nat.eq_zero_or_pos n
    · exact .inl fun c => c.elim0
    obtain more | all := Nat.lt_or_eq_of_le booting.numlpics
    · exact .inr ⟨.allocateCoreId, _, trivial, if_pos more, work_allocateCoreId more⟩
    · let c : Fin n := ⟨0, positive⟩
      obtain start | ⟨_, publishing, _⟩ := booting.pc c
      · have counted : s.Starting c := ⟨start, positive.trans_eq all.symm⟩
        exact .inr ⟨.init c, _, all, if_pos ⟨counted, rfl⟩,
          work_setCore (by simp [start, Pc.work])⟩
      · exact .inr ⟨.publish c, _, trivial, if_pos publishing,
          work_setCore (by simp [publishing, Pc.work])⟩
  by_cases moves : ∃ c, (s.core c).pc ≠ .outside ∧ ¬ (s.core c).Waits r
  · obtain ⟨c, inside, moves⟩ := moves
    exact .inr (h.goes_on inside moves)
  push Not at moves
  have fits : ∀ c, (s.core c).pc = .outside → (s.core c).entered = r ∧ (s.core c).left = r := by
    intro c at_
    have fits := (h.fits c).2
    simpa only [at_] using fits
  by_cases out : ∀ c, (s.core c).pc = .outside
  · refine .inl fun c => ⟨out c, ?_⟩
    rw [← calls c, (fits c (out c)).1, (fits c (out c)).2]
  · -- All cores wait, so that the count says that one is still to come.
    push Not at out
    obtain ⟨c, inside⟩ := out
    have round : k = r + 1 := (calls c).symm.trans (moves c inside).2
    have all : ∀ d, (s.core d).Waits r := by
      intro d
      refine moves d fun at_ => ?_
      have := (fits d at_).1
      have := calls d
      omega
    obtain ⟨positive, count⟩ := h.count fun d last => by
      have waits := (all d).1
      simp [Core.Last, waits] at last
    have waiting : s.waiting r = Finset.univ := Finset.eq_univ_iff_forall.mpr fun d =>
      mem_waiting.mpr (all d)
    rw [waiting, Finset.card_univ, Fintype.card_fin] at count
    omega

/-- A core that is outside has returned as often as it has called. -/
theorem Inv.outside (h : Inv s) (out : (s.core c).pc = .outside) :
    (s.core c).entered = (s.core c).left := by
  obtain booting | ⟨r, running⟩ := h
  · exact (booting.fresh c).2.1.trans (booting.fresh c).2.2.symm
  · obtain ⟨entered, left⟩ : (s.core c).entered = r ∧ (s.core c).left = r := by
      simpa only [out] using (running.fits c).2
    exact entered.trans left.symm

theorem Running.count_bounds (h : Running s r) : 0 ≤ s.bar.count ∧ s.bar.count ≤ n := by
  by_cases isLast : ∃ c, (s.core c).Last
  · obtain ⟨c, last⟩ := isLast
    rw [(h.last c last).2]
    split_ifs <;> omega
  · push Not at isLast
    have := h.count isLast
    omega

theorem Inv.count_bounds (h : Inv s) : 0 ≤ s.bar.count ∧ s.bar.count ≤ n := by
  obtain booting | ⟨r, running⟩ := h
  · obtain bar | bar := booting.bar
    · rw [bar]
      exact ⟨Int.le_refl 0, Int.natCast_nonneg n⟩
    · rw [bar]
      exact ⟨Int.natCast_nonneg n, Int.le_refl _⟩
  · exact running.count_bounds

theorem reach_calls (reached : (machine n).ReachVia AllCounted s) :
    (Barrier.calls (Fin n)).Reach s.calls := by
  induction reached with
  | init start =>
      subst start
      exact .init fun c => ⟨rfl, rfl⟩
  | step before counted moved ih =>
      exact ih.execVia ((reach_inv before).step counted moved).1

end

/-- The calls and returns of the cores are a run of a barrier. -/
theorem bindtst_barrier {n : Nat} {t : State n} {as : List (Action n)}
    (run : (machine n).execVia AllCounted (boot n) as = some t) :
    (Barrier.calls (Fin n)).exec (boot n).calls ((machine n).events shows (boot n) as) =
      some t.calls := by
  have refines : ∀ s x a t, (machine n).ReachVia AllCounted s → s.calls = x → AllCounted s a →
      (machine n).step s a = some t →
      ∃ y, (Barrier.calls (Fin n)).exec x (shows s a t) = some y ∧ t.calls = y := by
    rintro s _ a t reached rfl counted moved
    exact ⟨t.calls, ((reach_inv reached).step counted moved).1, rfl⟩
  obtain ⟨x, answered, rfl⟩ := Machine.execVia_refines refines (.init rfl) rfl run
  exact answered

def first : Fin 2 := ⟨0, Nat.two_pos⟩

def second : Fin 2 := ⟨1, Nat.one_lt_two⟩

/-- Two cores call the barrier once. -/
def once : List (Action 2) :=
  [.allocateCoreId, .allocateCoreId, .init first, .publish first, .enter first, .await second,
    .arrive first, .enter second, .spin first, .arrive second, .reset second]

/-- The state after these calls. -/
def passed : State 2 :=
  ((machine 2).execVia AllCounted (boot 2) (once ++ [.release second, .spin first])).get
    (by decide)

theorem passed_run : (machine 2).execVia AllCounted (boot 2)
    (once ++ [.release second, .spin first]) = some passed :=
  (Option.some_get _).symm

theorem passed_barrier :
    (Barrier.calls (Fin 2)).exec (boot 2).calls
        ((machine 2).events shows (boot 2) (once ++ [.release second, .spin first])) =
      some passed.calls :=
  bindtst_barrier passed_run

/-- The condition is needed: core 0 starts the barrier while the second core is not yet counted,
and leaves its first call alone. -/
theorem exists_left_alone : ∃ s, (machine 2).exec (boot 2)
      [.allocateCoreId, .init first, .publish first, .enter first, .arrive first, .reset first,
        .release first] = some s ∧
    (s.core first).left = 1 ∧ (s.core second).entered = 0 :=
  ⟨_, rfl, by decide⟩

/-- Nobody leaves a call that somebody has not entered, so what cores do between two calls of
the barrier never overlaps with what others do between two other calls. The count stays
between 0 and the number of cores. -/
theorem bindtst_phases {n : Nat} {s : State n} (reached : (machine n).ReachVia AllCounted s) :
    (∀ c d, (s.core c).left ≤ (s.core d).entered) ∧
    (∀ c d, (s.core c).pc = .outside → (s.core d).pc = .outside →
      (s.core c).left = (s.core d).left) ∧
    0 ≤ s.bar.count ∧ s.bar.count ≤ n := by
  have separates := Barrier.reach_separates (reach_calls reached)
  have inv := reach_inv reached
  exact ⟨separates.together,
    fun c d out out' => separates.left_eq (inv.outside out) (inv.outside out'), inv.count_bounds⟩

theorem passed_phases :
    (∀ c d, (passed.core c).left ≤ (passed.core d).entered) ∧
    (∀ c d, (passed.core c).pc = .outside → (passed.core d).pc = .outside →
      (passed.core c).left = (passed.core d).left) ∧
    0 ≤ passed.bar.count ∧ passed.bar.count ≤ (2 : Nat) :=
  bindtst_phases (Machine.reachVia_of_execVia rfl passed_run)

/-- When all cores have made their `k`-th call, then either all of them have returned from it or
some core can go on. Every step that is no new call changes nothing, as a test that fails, or
brings the end nearer. So all calls return, whatever the order of the steps is. -/
theorem bindtst_returns {n k : Nat} {s : State n} (reached : (machine n).ReachVia AllCounted s)
    (calls : ∀ c, (s.core c).entered = k) :
    ((∀ c, (s.core c).pc = .outside ∧ (s.core c).left = k) ∨
      ∃ a t, AllCounted s a ∧ s.step a = some t ∧ t.work < s.work) ∧
    ∀ a t, s.step a = some t → t = s ∨ t.work < s.work ∨ ∃ c, a = .enter c :=
  ⟨(reach_inv reached).returns calls, fun _ _ => work_step⟩

/-- The state in which the last core is about to change the sense. -/
def turning : State 2 := ((machine 2).execVia AllCounted (boot 2) once).get (by decide)

theorem turning_returns :
    ((∀ c, (turning.core c).pc = .outside ∧ (turning.core c).left = 1) ∨
      ∃ a t, AllCounted turning a ∧ turning.step a = some t ∧ t.work < turning.work) ∧
    ∀ a t, turning.step a = some t → t = turning ∨ t.work < turning.work ∨ ∃ c, a = .enter c :=
  bindtst_returns (Machine.reachVia_of_execVia rfl (Option.some_get _).symm) (by decide)

end EBBLib.BindTst
