import EBBLib.Pic.Vectors
import Mathlib.Data.BitVec

/-!
# Descriptors of vectors

On Unix the interrupt of vector `v` is that descriptor `FIRST_VECFD + v` is ready. The sets
of descriptors that are enabled and that have an interest are kept together with the
largest enabled descriptor, so that `pselect` and the loops around it do not have to look
further.
-/

namespace EBBLib.Pic.Unix

open Vectors (numVec numMappableVec)

/-- `FIRST_VECFD`. -/
def firstVecFd : Nat := 16

/-- `fd_set`. -/
abbrev FdSet := Int → Bool

/-- `FD_SET`. -/
def fdSet (s : FdSet) (i : Int) : FdSet := Function.update s i true

/-- `FD_CLR`. -/
def fdClr (s : FdSet) (i : Int) : FdSet := Function.update s i false

/-- `int i = vec + FIRST_VECFD`. -/
def vecFd (vec : Nat) : Int := (BitVec.ofNat 32 (vec + firstVecFd)).toInt

/-- What a descriptor may be ready for. -/
inductive Interest where
  | read
  | write
  | error
deriving DecidableEq, Repr

/-- `LRT_ULNX_PICFLAG_READ`, `LRT_ULNX_PICFLAG_WRITE` and `LRT_ULNX_PICFLAG_ERROR`. -/
def Interest.flag : Interest → Nat
  | read => 1
  | write => 2
  | error => 4

/-- The three sets of `pselect`. -/
structure FdSets where
  rfds : FdSet
  wfds : FdSet
  efds : FdSet

namespace FdSets

def of (s : FdSets) : Interest → FdSet
  | .read => s.rfds
  | .write => s.wfds
  | .error => s.efds

/-- `FD_ZERO` on all sets. -/
def zero : FdSets := ⟨fun _ => false, fun _ => false, fun _ => false⟩

/-- Descriptor `i` is put into the sets that `wanted` selects. -/
def put (s : FdSets) (i : Int) (wanted : Interest → Bool) : FdSets where
  rfds := if wanted .read then fdSet s.rfds i else s.rfds
  wfds := if wanted .write then fdSet s.wfds i else s.wfds
  efds := if wanted .error then fdSet s.efds i else s.efds

/-- `FD_ISSET` of `i` in some set. -/
def any (s : FdSets) (i : Int) : Bool := s.efds i || s.wfds i || s.rfds i

/-- All descriptors are in the sets of `t`, too. -/
def Subset (s t : FdSets) : Prop := ∀ k i, s.of k i → t.of k i

end FdSets

/-- `struct unix_pic`. -/
structure Upic extends FdSets where
  enabled : FdSet
  maxfd : Int

/-- `lrt_pic_src`. -/
structure Src where
  fd : Int
  flags : Nat
deriving DecidableEq, Repr

/-- `upic` after `lrt_pic_unix_init`. -/
def lrtPicUnixInit : Upic := { FdSets.zero with enabled := fun _ => false, maxfd := 0 }

/-- `lrt_pic_unix_locked_map`, where `mapped` says that `dup2` returns the descriptor it is
asked for. -/
def lockedMap (u : Upic) (src : Src) (vec : Nat) (mapped : Bool) : Int × Upic :=
  let i := vecFd vec
  if mapped then
    (0, { u with toFdSets := u.put i fun k => src.flags &&& k.flag ≠ 0 })
  else (-1, u)

/-- `lrt_pic_unix_locked_enable`. -/
def lockedEnable (u : Upic) (vec : Nat) : Int × Upic :=
  let i := vecFd vec
  (0, { u with enabled := fdSet u.enabled i, maxfd := if u.maxfd < i then i else u.maxfd })

/-- The loop of `lrt_pic_unix_locked_disable` from descriptor `i` downwards. -/
def findMax (enabled : FdSet) : Nat → Int → Int
  | 0, _ => 0
  | todo + 1, i => if enabled i then i else findMax enabled todo (i - 1)

/-- `lrt_pic_unix_locked_disable`. -/
def lockedDisable (u : Upic) (vec : Nat) : Int × Upic :=
  let i := vecFd vec
  let u := { u with enabled := fdClr u.enabled i }
  (0, if i = u.maxfd then
      { u with maxfd := findMax u.enabled (numVec + 1) (firstVecFd + numVec) }
    else u)

/-! ### Waiting for an interrupt -/

/-- `lrt_pic_unix_ints`. -/
abbrev Ints := Nat → Bool

/-- What `pselect` returns: the number of bits in the sets and the sets, or an error. -/
inductive Selected where
  | ready (rc : Nat) (sets : FdSets)
  | eintr
  | failed

/-- The loop before `pselect`, from descriptor `i` on. -/
def copyFrom (u : Upic) : Nat → Int → FdSets → FdSets
  | 0, _, s => s
  | todo + 1, i, s =>
      copyFrom u todo (i + 1) (if u.enabled i then s.put i fun k => u.of k i else s)

/-- The loop behind `pselect`, from descriptor `i` and vector `v` on. -/
def collectFrom (sets : FdSets) : Nat → Int → Nat → Nat × Ints → Nat × Ints
  | 0, _, _, found => found
  | todo + 1, i, v, (numintr, s) =>
      collectFrom sets todo (i + 1) (v + 1)
        (if sets.any i then (numintr + 1, Function.update s v true) else (numintr, s))

/-- The iterations of a loop from `FIRST_VECFD` to `upic.maxfd`. -/
def Upic.span (u : Upic) : Nat := (u.maxfd + 1 - firstVecFd).toNat

/-- The sets that are handed to `pselect`. -/
def Upic.selected (u : Upic) : FdSets := copyFrom u u.span firstVecFd FdSets.zero

/-- `lrt_pic_unix_blockforinterrupt`, which gives `pselect` no timeout. -/
def blockForInterrupt (pselect : Int → FdSets → Selected) (u : Upic) : Int × Ints :=
  match pselect (u.maxfd + 1) u.selected with
  | .eintr => (0, fun _ => false)
  | .failed => (-1, fun _ => false)
  | .ready rc sets =>
      if rc = 0 then (-1, fun _ => false)
      else
        let (numintr, s) := collectFrom sets u.span firstVecFd 0 (0, fun _ => false)
        (numintr, s)

/-! ### Runs -/

inductive Action where
  | map (src : Src) (vec : Nat) (mapped : Bool)
  | enable (vec : Nat)
  | disable (vec : Nat)
deriving DecidableEq

/-- The calls are on record, the last one first. -/
structure State where
  upic : Upic
  calls : List Action

/-- `upic` after a call. -/
def Upic.after (u : Upic) : Action → Upic
  | .map src vec mapped => (lockedMap u src vec mapped).2
  | .enable vec => (lockedEnable u vec).2
  | .disable vec => (lockedDisable u vec).2

def Action.vec : Action → Nat
  | .map _ vec _ => vec
  | .enable vec => vec
  | .disable vec => vec

/-- A call for a vector. -/
def State.step (s : State) (a : Action) : Option State :=
  if a.vec < numVec then some ⟨s.upic.after a, a :: s.calls⟩ else none

def machine : Machine State Action where
  init s := s = ⟨lrtPicUnixInit, []⟩
  step := State.step

/-- The source of a vector is that of its last map which succeeded. -/
def source (v : Nat) : List Action → Option Src
  | [] => none
  | .map src vec true :: calls => if vec = v then some src else source v calls
  | _ :: calls => source v calls

/-- A vector is on if it was enabled and has not been disabled since. -/
def on (v : Nat) : List Action → Bool
  | [] => false
  | .enable vec :: calls => if vec = v then true else on v calls
  | .disable vec :: calls => if vec = v then false else on v calls
  | .map _ _ _ :: calls => on v calls

/-- The source of vector `v` has an interest. -/
def State.Wants (s : State) (v : Nat) (k : Interest) : Prop :=
  ∃ src, source v s.calls = some src ∧ src.flags &&& k.flag ≠ 0

/-- Some source that vector `v` has or had has an interest. -/
def State.Wanted (s : State) (v : Nat) (k : Interest) : Prop :=
  ∃ src, .map src v true ∈ s.calls ∧ src.flags &&& k.flag ≠ 0

/-- What should hold of the descriptors. -/
structure Bookkeeping (s : State) : Prop where
  /-- `maxfd` is the largest enabled descriptor. -/
  largest : ∀ v, on v s.calls → firstVecFd + v ≤ s.upic.maxfd
  enabled : (∃ v : Nat, s.upic.maxfd = firstVecFd + v ∧ on v s.calls) ∨
    s.upic.maxfd = 0 ∧ ∀ v, on v s.calls = false
  /-- `pselect` is asked for the enabled descriptors with the interests of their sources. -/
  handed : ∀ k i, s.upic.selected.of k i ↔
    ∃ v : Nat, i = firstVecFd + v ∧ on v s.calls ∧ s.Wants v k
  /-- The vectors that are reported are those of the descriptors that are ready. -/
  reported : ∀ pselect rc sets, pselect (s.upic.maxfd + 1) s.upic.selected = .ready rc sets →
    rc ≠ 0 → sets.Subset s.upic.selected →
    let (numintr, ints) := blockForInterrupt pselect s.upic
    (∀ v : Nat, ints v ↔ sets.any (firstVecFd + v)) ∧ (∀ v, ints v → v < numVec) ∧
      numintr = (List.range numVec).countP ints
  interrupted : ∀ pselect, pselect (s.upic.maxfd + 1) s.upic.selected = .eintr →
    blockForInterrupt pselect s.upic = (0, fun _ => false)

/-! ### The loops -/

section

variable {u : Upic} {s t : State} {sets : FdSets} {i : Int} {k : Interest} {vec : Nat}

theorem vecFd_eq (inside : vec < numVec) : vecFd vec = firstVecFd + vec := by
  have small : vec < 34 := inside
  rw [vecFd, BitVec.toInt_eq_toNat_of_lt, BitVec.toNat_ofNat, Nat.mod_eq_of_lt]
  · simp only [firstVecFd]
    omega
  · simp only [firstVecFd]
    omega
  · rw [BitVec.toNat_ofNat, Nat.mod_eq_of_lt] <;> simp only [firstVecFd] <;> omega

/-- The loop finds the largest enabled descriptor that it looks at. -/
theorem findMax_cases (enabled : FdSet) (todo : Nat) (i : Int) :
    (findMax enabled todo i = 0 ∧ ∀ j, i - todo < j → j ≤ i → enabled j = false) ∨
      enabled (findMax enabled todo i) ∧
        ∀ j, findMax enabled todo i < j → j ≤ i → enabled j = false := by
  induction todo generalizing i with
  | zero =>
      refine .inl ⟨rfl, fun j after upto => ?_⟩
      omega
  | succ todo ih =>
      rw [findMax]
      split
      · rename_i here
        refine .inr ⟨here, fun j after upto => ?_⟩
        omega
      · rename_i off
        have below : ∀ j, j ≤ i → enabled j = false ∨ j ≤ i - 1 := by
          intro j upto
          by_cases same : j = i
          · exact .inl (same ▸ Bool.not_eq_true _ ▸ off)
          · right
            omega
        obtain ⟨none, rest⟩ | ⟨found, rest⟩ := ih (i - 1)
        · refine .inl ⟨none, fun j after upto => ?_⟩
          obtain off | upto := below j upto
          · exact off
          · exact rest j (by omega) upto
        · refine .inr ⟨found, fun j after upto => ?_⟩
          obtain off | upto := below j upto
          · exact off
          · exact rest j after upto

theorem put_of {s : FdSets} {wanted : Interest → Bool} {j : Int} :
    (s.put i wanted).of k j ↔ s.of k j ∨ j = i ∧ wanted k := by
  have each : ∀ (set : FdSet) (b : Bool),
      (if b then fdSet set i else set) j ↔ set j ∨ j = i ∧ b := by
    intro set b
    by_cases here : j = i
    · cases b <;> simp [fdSet, here]
    · cases b <;> simp [fdSet, here]
  cases k with
  | read | write | error => exact each _ _

/-- The loop copies the interests of the enabled descriptors that it looks at. -/
theorem copyFrom_of (todo : Nat) (s : FdSets) {j : Int} :
    (copyFrom u todo i s).of k j ↔
      s.of k j ∨ (i ≤ j ∧ j < i + todo) ∧ u.enabled j ∧ u.of k j := by
  induction todo generalizing i s with
  | zero =>
      have outside : ¬ (i ≤ j ∧ j < i + (0 : Nat)) := by omega
      rw [copyFrom]
      exact (or_iff_left fun both => outside both.1).symm
  | succ todo ih =>
      have step : (if u.enabled i then s.put i fun k => u.of k i else s).of k j ↔
          s.of k j ∨ j = i ∧ u.enabled j ∧ u.of k j := by
        by_cases here : u.enabled i
        · rw [if_pos here, put_of]
          grind
        · rw [if_neg here]
          grind
      have range : i ≤ j ∧ j < i + (todo + 1 : Nat) ↔ j = i ∨ i + 1 ≤ j ∧ j < i + 1 + todo := by
        omega
      rw [copyFrom, ih, step, range, or_assoc, or_and_right]

/-- A vector that the loop comes by is reported if its descriptor is ready. -/
theorem collectFrom_ints (todo v numintr : Nat) (ints : Ints) {w : Nat} :
    (collectFrom sets todo (firstVecFd + v) v (numintr, ints)).2 w ↔
      ints w ∨ (v ≤ w ∧ w < v + todo) ∧ sets.any (firstVecFd + w) := by
  induction todo generalizing v numintr ints with
  | zero =>
      have outside : ¬ (v ≤ w ∧ w < v + 0) := by omega
      rw [collectFrom]
      exact (or_iff_left fun both => outside both.1).symm
  | succ todo ih =>
      have next : (firstVecFd : Int) + v + 1 = firstVecFd + (v + 1 : Nat) := by omega
      have range : v ≤ w ∧ w < v + (todo + 1) ↔ w = v ∨ v + 1 ≤ w ∧ w < v + 1 + todo := by
        omega
      rw [collectFrom, next, range]
      by_cases ready : sets.any (firstVecFd + v)
      · rw [if_pos ready, ih, Function.update_apply]
        by_cases here : w = v
        · simp [here, ready]
        · simp [here]
      · rw [if_neg ready, ih]
        by_cases here : w = v
        · simp [here, ready]
        · simp [here]

/-- All vectors that the loop reports are counted. -/
theorem collectFrom_numintr (todo v numintr : Nat) (ints : Ints) :
    (collectFrom sets todo (firstVecFd + v) v (numintr, ints)).1 =
      numintr + (List.range' v todo).countP fun w : Nat => sets.any (firstVecFd + w) := by
  induction todo generalizing v numintr ints with
  | zero => rfl
  | succ todo ih =>
      have next : (firstVecFd : Int) + v + 1 = firstVecFd + (v + 1 : Nat) := by omega
      rw [collectFrom, next, List.range'_succ]
      by_cases ready : sets.any (firstVecFd + v)
      · rw [if_pos ready, ih, List.countP_cons_of_pos (by exact ready)]
        omega
      · rw [if_neg ready, ih, List.countP_cons_of_neg (by exact ready)]

/-! ### Every run -/

/-- What the calls keep of the descriptors. -/
structure Inv (s : State) : Prop where
  vectors : ∀ v, on v s.calls → v < numVec
  enabled : ∀ i, s.upic.enabled i ↔ ∃ v : Nat, i = firstVecFd + v ∧ on v s.calls
  interests : ∀ k i, s.upic.of k i ↔ ∃ v : Nat, i = firstVecFd + v ∧ s.Wanted v k
  largest : ∀ i, s.upic.enabled i → i ≤ s.upic.maxfd
  maxfd : s.upic.enabled s.upic.maxfd ∨ s.upic.maxfd = 0 ∧ ∀ i, s.upic.enabled i = false

theorem inv_init (start : machine.init s) : Inv s := by
  rw [show s = ⟨lrtPicUnixInit, []⟩ from start]
  refine ⟨nofun, fun i => ?_, fun k i => ?_, nofun, .inr ⟨rfl, fun _ => rfl⟩⟩
  · simp [lrtPicUnixInit, on]
  · have clear : lrtPicUnixInit.of k i = false := by cases k <;> rfl
    simp [clear, State.Wanted]

/-- A call that is no map which succeeds leaves the interests alone. -/
theorem State.wanted_cons {a : Action} (u : Upic) {v : Nat}
    (other : ∀ src, a ≠ .map src v true) :
    State.Wanted ⟨u, a :: s.calls⟩ v k ↔ s.Wanted v k := by
  constructor
  · rintro ⟨src, mapped, flag⟩
    obtain new | old := List.mem_cons.1 mapped
    · exact absurd new.symm (other src)
    · exact ⟨src, old, flag⟩
  · rintro ⟨src, mapped, flag⟩
    exact ⟨src, List.mem_cons_of_mem _ mapped, flag⟩

theorem Inv.enable (inv : Inv s) (inside : vec < numVec) :
    Inv ⟨(lockedEnable s.upic vec).2, .enable vec :: s.calls⟩ := by
  have set : ∀ i, fdSet s.upic.enabled (firstVecFd + vec) i ↔
      i = firstVecFd + vec ∨ s.upic.enabled i := by
    intro i
    by_cases here : i = firstVecFd + vec <;> simp [fdSet, here]
  have turned : ∀ v, on v (.enable vec :: s.calls) ↔ v = vec ∨ on v s.calls := by
    intro v
    by_cases here : vec = v
    · simp [on, here]
    · simp [on, here, Ne.symm here]
  rw [lockedEnable, vecFd_eq inside]
  refine ⟨fun v is => ?_, fun i => (set i).trans ?_, fun k i => ?_, fun i is => ?_, .inl ?_⟩
  · obtain rfl | is := (turned v).1 is
    · exact inside
    · exact inv.vectors v is
  · rw [inv.enabled]
    constructor
    · rintro (rfl | ⟨v, rfl, is⟩)
      · exact ⟨vec, rfl, (turned vec).2 (.inl rfl)⟩
      · exact ⟨v, rfl, (turned v).2 (.inr is)⟩
    · rintro ⟨v, rfl, is⟩
      obtain rfl | is := (turned v).1 is
      · exact .inl rfl
      · exact .inr ⟨v, rfl, is⟩
  · exact (inv.interests k i).trans
      (exists_congr fun v => and_congr_right fun _ => (State.wanted_cons _ (by simp)).symm)
  · obtain rfl | is := (set i).1 is
    · simp only
      split <;> omega
    · have upto := inv.largest i is
      simp only
      split <;> omega
  · simp only
    rw [set]
    split
    · exact .inl rfl
    · rename_i beyond
      obtain is | ⟨zero, -⟩ := inv.maxfd
      · exact .inr is
      · rw [zero] at beyond
        simp only [firstVecFd] at beyond
        omega

theorem Inv.disable (inv : Inv s) (inside : vec < numVec) :
    Inv ⟨(lockedDisable s.upic vec).2, .disable vec :: s.calls⟩ := by
  have clr : ∀ i, fdClr s.upic.enabled (firstVecFd + vec) i ↔
      i ≠ firstVecFd + vec ∧ s.upic.enabled i := by
    intro i
    by_cases here : i = firstVecFd + vec <;> simp [fdClr, here]
  have turned : ∀ v, on v (.disable vec :: s.calls) ↔ v ≠ vec ∧ on v s.calls := by
    intro v
    by_cases here : vec = v
    · simp [on, here]
    · simp [on, here, Ne.symm here]
  have vectors : ∀ v, on v (.disable vec :: s.calls) → v < numVec :=
    fun v is => inv.vectors v ((turned v).1 is).2
  have enabled : ∀ i, fdClr s.upic.enabled (firstVecFd + vec) i ↔
      ∃ v : Nat, i = firstVecFd + v ∧ on v (.disable vec :: s.calls) := by
    intro i
    rw [clr, inv.enabled]
    constructor
    · rintro ⟨other, v, rfl, is⟩
      exact ⟨v, rfl, (turned v).2 ⟨fun same => other (by rw [same]), is⟩⟩
    · rintro ⟨v, rfl, is⟩
      have both := (turned v).1 is
      exact ⟨fun same => both.1 (by omega), v, rfl, both.2⟩
  have bounded : ∀ i, fdClr s.upic.enabled (firstVecFd + vec) i →
      ∃ v < numVec, i = firstVecFd + v := by
    intro i is
    obtain ⟨v, eq, set⟩ := (enabled i).1 is
    exact ⟨v, vectors v set, eq⟩
  have interests : ∀ k i, s.upic.of k i ↔ ∃ v : Nat, i = firstVecFd + v ∧
      State.Wanted ⟨(lockedDisable s.upic vec).2, .disable vec :: s.calls⟩ v k := fun k i =>
    (inv.interests k i).trans
      (exists_congr fun v => and_congr_right fun _ => (State.wanted_cons _ (by simp)).symm)
  rw [lockedDisable, vecFd_eq inside] at interests ⊢
  simp only at interests ⊢
  split
  · rename_i largest
    rw [if_pos largest] at interests
    have scan := findMax_cases (fdClr s.upic.enabled (firstVecFd + vec)) (numVec + 1)
      (firstVecFd + numVec)
    obtain ⟨none, rest⟩ | ⟨found, rest⟩ := scan
    · have off : ∀ i, fdClr s.upic.enabled (firstVecFd + vec) i = false := by
        intro i
        by_contra is
        obtain ⟨v, small, rfl⟩ := bounded i (by simpa using is)
        exact is (rest _ (by omega) (by omega))
      exact ⟨vectors, enabled, interests, fun i is => absurd is (by simp [off]),
        .inr ⟨none, off⟩⟩
    · refine ⟨vectors, enabled, interests, fun i is => ?_, .inl found⟩
      by_contra beyond
      obtain ⟨v, small, rfl⟩ := bounded i is
      exact absurd is (by simp [rest _ (not_le.1 beyond) (by omega)])
  · rename_i other
    rw [if_neg other] at interests
    refine ⟨vectors, enabled, interests, fun i is => inv.largest i ((clr i).1 is).2, ?_⟩
    obtain is | ⟨zero, off⟩ := inv.maxfd
    · exact .inl ((clr _).2 ⟨Ne.symm other, is⟩)
    · exact .inr ⟨zero, fun i => by simpa [off] using clr i⟩

theorem Inv.map (inv : Inv s) (inside : vec < numVec) (src : Src) :
    Inv ⟨(lockedMap s.upic src vec true).2, .map src vec true :: s.calls⟩ := by
  refine ⟨inv.vectors, inv.enabled, fun k i => ?_, inv.largest, inv.maxfd⟩
  have wanted : (∃ v : Nat, i = firstVecFd + v ∧
        State.Wanted ⟨(lockedMap s.upic src vec true).2, .map src vec true :: s.calls⟩ v k) ↔
      (∃ v : Nat, i = firstVecFd + v ∧ s.Wanted v k) ∨
        i = firstVecFd + vec ∧ src.flags &&& k.flag ≠ 0 := by
    constructor
    · rintro ⟨v, eq, other, mapped, flag⟩
      obtain new | old := List.mem_cons.1 mapped
      · obtain ⟨rfl, rfl, -⟩ := Action.map.inj new
        exact .inr ⟨eq, flag⟩
      · exact .inl ⟨v, eq, other, old, flag⟩
    · rintro (⟨v, eq, other, mapped, flag⟩ | ⟨eq, flag⟩)
      · exact ⟨v, eq, other, List.mem_cons_of_mem _ mapped, flag⟩
      · exact ⟨vec, eq, src, List.mem_cons_self, flag⟩
  rw [wanted, ← inv.interests, lockedMap, vecFd_eq inside]
  exact put_of.trans (by simp)

theorem inv_step {a : Action} (inv : Inv s) (moved : machine.step s a = some t) : Inv t := by
  obtain ⟨inside, moved⟩ := Option.ite_none_right_eq_some.1 moved
  obtain rfl := Option.some.inj moved
  cases a with
  | map src vec mapped =>
      cases mapped with
      | true => exact inv.map inside src
      | false =>
          refine ⟨inv.vectors, inv.enabled, fun k i => (inv.interests k i).trans ?_, inv.largest,
            inv.maxfd⟩
          exact exists_congr fun v =>
            and_congr_right fun _ => (State.wanted_cons _ (by simp)).symm
  | enable vec => exact inv.enable inside
  | disable vec => exact inv.disable inside

theorem inv (run : machine.Reach s) : Inv s :=
  run.invariant (fun _ => inv_init) fun _ _ _ _ inv _ moved => inv_step inv moved

theorem Inv.bounded (inv : Inv s) {i : Int} (is : s.upic.enabled i) :
    ∃ v < numVec, i = firstVecFd + v := by
  obtain ⟨v, eq, set⟩ := (inv.enabled i).1 is
  exact ⟨v, inv.vectors v set, eq⟩

/-- `pselect` is given the interests in the enabled descriptors. -/
theorem Inv.selected (inv : Inv s) (k : Interest) (i : Int) :
    s.upic.selected.of k i ↔ s.upic.enabled i ∧ s.upic.of k i := by
  have empty : FdSets.zero.of k i = false := by cases k <;> rfl
  rw [Upic.selected, copyFrom_of, empty]
  constructor
  · rintro (none | ⟨-, both⟩)
    · exact absurd none (by simp)
    · exact both
  · intro both
    obtain ⟨v, small, rfl⟩ := inv.bounded both.1
    have upto := inv.largest _ both.1
    refine .inr ⟨⟨?_, ?_⟩, both⟩
    · omega
    · rw [Upic.span]
      omega

theorem FdSets.any_iff {i : Int} : sets.any i ↔ ∃ k, sets.of k i := by
  constructor
  · intro ready
    rw [FdSets.any, Bool.or_eq_true, Bool.or_eq_true] at ready
    obtain (e | w) | r := ready
    · exact ⟨.error, e⟩
    · exact ⟨.write, w⟩
    · exact ⟨.read, r⟩
  · rintro ⟨k, ready⟩
    cases k <;> simp_all [FdSets.any, FdSets.of]

/-- A descriptor that `pselect` finds ready is that of a vector in the range of the loop. -/
theorem Inv.ready (inv : Inv s) (subset : sets.Subset s.upic.selected) {i : Int}
    (ready : sets.any i) : ∃ v : Nat, v < numVec ∧ v < s.upic.span ∧ i = firstVecFd + v := by
  obtain ⟨k, member⟩ := FdSets.any_iff.1 ready
  have is := ((inv.selected k i).1 (subset k i member)).1
  obtain ⟨v, small, rfl⟩ := inv.bounded is
  have upto := inv.largest _ is
  refine ⟨v, small, ?_, rfl⟩
  rw [Upic.span]
  omega

theorem Inv.span_le (inv : Inv s) : s.upic.span ≤ numVec := by
  rw [Upic.span]
  obtain is | ⟨zero, -⟩ := inv.maxfd
  · obtain ⟨v, small, eq⟩ := inv.bounded is
    omega
  · rw [zero, firstVecFd]
    omega

theorem Inv.reported (inv : Inv s) {pselect : Int → FdSets → Selected} {rc : Nat}
    (returned : pselect (s.upic.maxfd + 1) s.upic.selected = .ready rc sets) (some : rc ≠ 0)
    (subset : sets.Subset s.upic.selected) :
    (∀ v : Nat, (blockForInterrupt pselect s.upic).2 v ↔ sets.any (firstVecFd + v)) ∧
      (∀ v, (blockForInterrupt pselect s.upic).2 v → v < numVec) ∧
      (blockForInterrupt pselect s.upic).1 =
        (List.range numVec).countP (blockForInterrupt pselect s.upic).2 := by
  have found : blockForInterrupt pselect s.upic =
      (((collectFrom sets s.upic.span (firstVecFd + (0 : Nat)) 0 (0, fun _ => false)).1 : Int),
        (collectFrom sets s.upic.span (firstVecFd + (0 : Nat)) 0 (0, fun _ => false)).2) := by
    simp only [blockForInterrupt, returned, if_neg some]
    rfl
  have ints : ∀ v : Nat, (blockForInterrupt pselect s.upic).2 v ↔ sets.any (firstVecFd + v) := by
    intro v
    rw [found, collectFrom_ints]
    constructor
    · rintro (none | ⟨-, ready⟩)
      · exact absurd none (by simp)
      · exact ready
    · intro ready
      obtain ⟨w, -, inside, eq⟩ := inv.ready subset ready
      obtain rfl : v = w := by omega
      exact .inr ⟨by omega, ready⟩
  have bounded : ∀ v : Nat, sets.any (firstVecFd + v) → v < numVec ∧ v < s.upic.span := by
    intro v ready
    obtain ⟨w, small, inside, eq⟩ := inv.ready subset ready
    obtain rfl : v = w := by omega
    exact ⟨small, inside⟩
  have beyond : (List.range' s.upic.span (numVec - s.upic.span)).countP
      (fun v : Nat => sets.any (firstVecFd + v)) = 0 := by
    rw [List.countP_eq_zero]
    intro v member ready
    have inside := (bounded v ready).2
    have from_span := (List.mem_range'_1.1 member).1
    omega
  have same : (blockForInterrupt pselect s.upic).2 = fun v : Nat => sets.any (firstVecFd + v) :=
    funext fun v => Bool.eq_iff_iff.2 (ints v)
  refine ⟨ints, fun v member => (bounded v ((ints v).1 member)).1, ?_⟩
  have split : List.range numVec =
      List.range' 0 s.upic.span ++ List.range' s.upic.span (numVec - s.upic.span) := by
    have append := @List.range'_append_1 0 s.upic.span (numVec - s.upic.span)
    rw [zero_add, Nat.add_sub_cancel' inv.span_le] at append
    rw [append, List.range_eq_range']
  rw [same, split, List.countP_append, beyond, found, collectFrom_numintr]
  simp

/-- Only a map which succeeded gives a vector a source. -/
theorem mem_of_source {v : Nat} {src : Src} {calls : List Action}
    (found : source v calls = some src) : .map src v true ∈ calls := by
  induction calls with
  | nil => cases found
  | cons a calls ih =>
      rw [source.eq_def] at found
      split at found
      · contradiction
      · rename_i eq
        obtain ⟨rfl, rfl⟩ := List.cons.inj eq
        split at found
        · rename_i here
          obtain rfl := Option.some.inj found
          exact here ▸ List.mem_cons_self
        · exact List.mem_cons_of_mem _ (ih found)
      · rename_i eq
        obtain ⟨rfl, rfl⟩ := List.cons.inj eq
        exact List.mem_cons_of_mem _ (ih found)

theorem State.Wants.wanted {v : Nat} (wants : s.Wants v k) : s.Wanted v k := by
  obtain ⟨src, found, flag⟩ := wants
  exact ⟨src, mem_of_source found, flag⟩

theorem Inv.handed (inv : Inv s) (k : Interest) (i : Int) :
    s.upic.selected.of k i ↔ ∃ v : Nat, i = firstVecFd + v ∧ on v s.calls ∧ s.Wanted v k := by
  rw [inv.selected, inv.enabled, inv.interests]
  constructor
  · rintro ⟨⟨v, rfl, is⟩, w, eq, wanted⟩
    obtain rfl : v = w := by omega
    exact ⟨v, rfl, is, wanted⟩
  · rintro ⟨v, rfl, is, wanted⟩
    exact ⟨⟨v, rfl, is⟩, v, rfl, wanted⟩

/-- In every state that calls for vectors reach, the descriptors are kept as they should if
and only if no vector that is on has lost an interest of a source it had before:
`lrt_pic_unix_locked_map` never takes a descriptor out of a set. -/
theorem bookkeeping_iff (run : machine.Reach s) :
    Bookkeeping s ↔ ∀ v k, on v s.calls → s.Wanted v k → s.Wants v k := by
  have kept := inv run
  constructor
  · intro book v k is wanted
    obtain ⟨w, eq, -, wants⟩ := (book.handed k _).1 ((kept.handed k _).2 ⟨v, rfl, is, wanted⟩)
    obtain rfl : v = w := by omega
    exact wants
  · intro still
    refine ⟨fun v is => kept.largest _ ((kept.enabled _).2 ⟨v, rfl, is⟩), ?_, fun k i => ?_,
      fun _ _ _ returned some subset => kept.reported returned some subset,
      fun pselect eintr => by simp only [blockForInterrupt, eintr]⟩
    · refine kept.maxfd.imp (kept.enabled _).1 fun none => ⟨none.1, fun v => ?_⟩
      by_contra is
      have set := (kept.enabled _).2 ⟨v, rfl, by simpa using is⟩
      exact absurd set (by simp [none.2])
    · rw [kept.handed]
      refine exists_congr fun v => and_congr_right fun _ => and_congr_right fun is => ?_
      exact ⟨still v k is, State.Wants.wanted⟩

end

/-- Vectors 3 and 5 are enabled, then 5 is disabled, and vector 3 is mapped for reading, then
for reading and writing. -/
theorem bookkeeping_iff_sample : ∃ s, machine.exec ⟨lrtPicUnixInit, []⟩
      [.enable 3, .enable 5, .disable 5, .map ⟨7, 1⟩ 3 true, .map ⟨8, 3⟩ 3 true] = some s ∧
    Bookkeeping s := by
  obtain ⟨s, run⟩ := Option.isSome_iff_exists.1 (show (machine.exec ⟨lrtPicUnixInit, []⟩
    [.enable 3, .enable 5, .disable 5, .map ⟨7, 1⟩ 3 true, .map ⟨8, 3⟩ 3 true]).isSome by rfl)
  refine ⟨s, run, (bookkeeping_iff (Machine.reachVia_of_execVia (by rfl) run)).2 ?_⟩
  have calls : s.calls =
      [.map ⟨8, 3⟩ 3 true, .map ⟨7, 1⟩ 3 true, .disable 5, .enable 5, .enable 3] := by
    obtain rfl := Option.some.inj run
    rfl
  intro v k is wanted
  obtain ⟨src, mapped, flag⟩ := wanted
  have both : v = 3 ∧ (src = ⟨8, 3⟩ ∨ src = ⟨7, 1⟩) := by
    rw [calls] at mapped
    simp only [List.mem_cons, Action.map.injEq, reduceCtorEq, List.not_mem_nil, or_false] at mapped
    grind
  obtain ⟨rfl, which⟩ := both
  refine ⟨⟨8, 3⟩, by rw [calls]; rfl, ?_⟩
  obtain rfl | rfl := which
  · exact flag
  · cases k with
    | read => decide
    | write | error => exact absurd flag (by decide)

/-- Vector 3 is mapped for reading, then to another descriptor for writing. `pselect` is asked
for both. -/
theorem exists_not_bookkeeping : ∃ s, machine.exec ⟨lrtPicUnixInit, []⟩
      [.enable 3, .map ⟨7, 1⟩ 3 true, .map ⟨8, 2⟩ 3 true] = some s ∧ ¬ Bookkeeping s := by
  obtain ⟨s, run⟩ := Option.isSome_iff_exists.1 (show (machine.exec ⟨lrtPicUnixInit, []⟩
    [.enable 3, .map ⟨7, 1⟩ 3 true, .map ⟨8, 2⟩ 3 true]).isSome by rfl)
  refine ⟨s, run, fun book => ?_⟩
  have handed := (book.handed .read 19).1 (by obtain rfl := Option.some.inj run; decide)
  obtain ⟨v, eq, -, src, found, flag⟩ := handed
  have calls : s.calls = [.map ⟨8, 2⟩ 3 true, .map ⟨7, 1⟩ 3 true, .enable 3] := by
    obtain rfl := Option.some.inj run
    rfl
  obtain rfl : v = 3 := by
    simp only [firstVecFd] at eq
    omega
  rw [calls] at found
  obtain rfl := Option.some.inj (show some (⟨8, 2⟩ : Src) = some src from found)
  exact absurd flag (by decide)

end EBBLib.Pic.Unix
