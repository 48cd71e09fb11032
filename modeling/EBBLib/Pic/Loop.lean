import EBBLib.Pic.Calls

/-!
# Dispatching interrupts

A pass of `lrt_pic_loop` goes over the vectors in order, with the set of vectors that the
wait has reported and their number. The number is counted down for the vectors whose handlers
are called, and the pass ends when it is used up. Vectors of the set that are not enabled are
not counted, so that the number is at least that of the vectors that are still to come.
-/

namespace EBBLib.Pic.Loop

open Vectors (numVec rstVec)
open Calls (State)
open Unix (Ints)

/-- A vector whose interrupt is handled. An error is printed instead of the call where the
local handler is null. -/
structure Dispatch where
  vec : Nat
  handler : Nat
  /-- What the handler starts with. -/
  entry : State

/-- The pic in a pass, and the vectors handled so far. -/
structure Pass where
  pic : State
  log : List Dispatch

/-- What the handler that comes last in the list does to the pic. -/
abbrev Handlers := List Dispatch → State → State

/-- The body of the test of `lpic->enabled[v]`. -/
def Pass.dispatch (myid : Nat) (handlers : Handlers) (p : Pass) (v : Nat) : Pass :=
  let s := p.pic.disable myid v
  let log := p.log ++ [⟨v, s.lvecs myid v, s⟩]
  if s.lvecs myid v ≠ 0 then ⟨handlers log s, log⟩ else ⟨s, log⟩

/-- The loop over the vectors from `v` on, and the vector at which it ends. -/
def vectorLoop (myid : Nat) (handlers : Handlers) (ints : Ints) :
    Nat → Nat → Int → Pass → Pass × Nat
  | 0, v, _, p => (p, v)
  | todo + 1, v, numintr, p =>
      if numintr ≤ 0 then (p, v)
      else if ints v then
        if p.pic.enabled myid v then
          vectorLoop myid handlers ints todo (v + 1) (numintr - 1) (p.dispatch myid handlers v)
        else vectorLoop myid handlers ints todo (v + 1) numintr p
      else vectorLoop myid handlers ints todo (v + 1) numintr p

/-- The pic when the loop gets to vector `v`. -/
def atVisit (myid : Nat) (handlers : Handlers) (ints : Ints) (numintr : Int) (s : State)
    (v : Nat) : State :=
  (vectorLoop myid handlers ints v 0 numintr ⟨s, []⟩).1.pic

/-- The loop handles what it should, and nothing else. -/
structure Dispatches (myid : Nat) (handlers : Handlers) (ints : Ints) (numintr : Int)
    (s : State) (ended : Pass × Nat) : Prop where
  /-- In order, and no vector twice. -/
  increasing : (ended.1.log.map Dispatch.vec).Pairwise (· < ·)
  handled : ∀ v, v ∈ ended.1.log.map Dispatch.vec ↔
    v < numVec ∧ ints v ∧ (atVisit myid handlers ints numintr s v).enabled myid v
  handler : ∀ d ∈ ended.1.log,
    d.entry = (atVisit myid handlers ints numintr s d.vec).disable myid d.vec ∧
      d.handler = d.entry.lvecs myid d.vec
  disabled : ∀ d ∈ ended.1.log, d.vec ≠ rstVec → d.entry.enabled myid d.vec = false
  /-- The first visit starts from the pic that the loop was given. -/
  first : atVisit myid handlers ints numintr s 0 = s
  /-- The next one starts from what the handler has left, if there is one. -/
  next : ∀ v, v < numVec → atVisit myid handlers ints numintr s (v + 1) =
    if ints v ∧ (atVisit myid handlers ints numintr s v).enabled myid v then
      let s := (atVisit myid handlers ints numintr s v).disable myid v
      if s.lvecs myid v ≠ 0 then handlers (ended.1.log.filter (·.vec ≤ v)) s else s
    else atVisit myid handlers ints numintr s v
  /-- No vector of the set is left when the loop ends. -/
  skipped : ∀ v, ended.2 ≤ v → v < numVec → ints v = false

section

variable {myid : Nat} {handlers : Handlers} {ints : Ints} {p : Pass} {s : State} {v n : Nat}

/-- A vector is visited, whatever is left of the number. -/
def Pass.visit (myid : Nat) (handlers : Handlers) (ints : Ints) (p : Pass) (v : Nat) : Pass :=
  if ints v ∧ p.pic.enabled myid v then p.dispatch myid handlers v else p

theorem visit_of_not_mem (none : ints v = false) : p.visit myid handlers ints v = p := by
  rw [Pass.visit, if_neg]
  simp [none]

theorem foldl_visit_of_not_mem {vs : List Nat} (none : ∀ w ∈ vs, ints w = false) :
    vs.foldl (Pass.visit myid handlers ints) p = p := by
  induction vs with
  | nil => rfl
  | cons w vs ih =>
      rw [List.foldl_cons, visit_of_not_mem (none w List.mem_cons_self)]
      exact ih fun v later => none v (List.mem_cons_of_mem _ later)

/-- The countdown ends the loop behind all vectors of the set. -/
theorem vectorLoop_eq (myid : Nat) (handlers : Handlers) (p : Pass) {todo : Nat} {numintr : Int}
    (enough : (List.range' v todo).countP ints ≤ numintr) :
    (vectorLoop myid handlers ints todo v numintr p).1 =
        (List.range' v todo).foldl (Pass.visit myid handlers ints) p ∧
      ∀ w, (vectorLoop myid handlers ints todo v numintr p).2 ≤ w → w < v + todo →
        ints w = false := by
  induction todo generalizing v numintr p with
  | zero => exact ⟨rfl, fun w (after : v ≤ w) before => by omega⟩
  | succ todo ih =>
      rw [List.range'_succ] at enough ⊢
      rw [vectorLoop, List.foldl_cons]
      by_cases member : ints v
      · rw [List.countP_cons_of_pos member] at enough
        rw [if_neg (by omega), if_pos member]
        by_cases enabled : p.pic.enabled myid v
        · have here : p.visit myid handlers ints v = p.dispatch myid handlers v :=
            if_pos ⟨member, enabled⟩
          have fewer : (List.range' (v + 1) todo).countP ints ≤ numintr - 1 := by omega
          obtain ⟨rest, skipped⟩ := ih (p.dispatch myid handlers v) fewer
          rw [if_pos enabled, here]
          exact ⟨rest, fun w after before => skipped w after (by omega)⟩
        · have here : p.visit myid handlers ints v = p :=
            if_neg fun both => enabled both.2
          have fewer : (List.range' (v + 1) todo).countP ints ≤ numintr := by omega
          obtain ⟨rest, skipped⟩ := ih p fewer
          rw [if_neg enabled, here]
          exact ⟨rest, fun w after before => skipped w after (by omega)⟩
      · rw [List.countP_cons_of_neg member] at enough
        have none : ints v = false := by simpa using member
        by_cases finished : numintr ≤ 0
        · have zero : (List.range' (v + 1) todo).countP ints = 0 := by omega
          have empty : ∀ w ∈ List.range' (v + 1) todo, ints w = false := by
            simpa [List.countP_eq_zero] using zero
          rw [if_pos finished, visit_of_not_mem none]
          refine ⟨(foldl_visit_of_not_mem empty).symm, fun w after before => ?_⟩
          obtain rfl | later := Nat.eq_or_lt_of_le (show v ≤ w from after)
          · exact none
          · exact empty w (List.mem_range'_1.2 ⟨later, by omega⟩)
        · obtain ⟨rest, skipped⟩ := ih p enough
          rw [if_neg finished, if_neg member, visit_of_not_mem none]
          exact ⟨rest, fun w after before => skipped w after (by omega)⟩

/-- The vectors below `n` have been visited. -/
def upTo (myid : Nat) (handlers : Handlers) (ints : Ints) (s : State) (n : Nat) : Pass :=
  (List.range n).foldl (Pass.visit myid handlers ints) ⟨s, []⟩

theorem upTo_succ : upTo myid handlers ints s (n + 1) =
    (upTo myid handlers ints s n).visit myid handlers ints n := by
  rw [upTo, List.range_succ, List.foldl_append]
  rfl

/-- The loop has come that far. -/
theorem vectorLoop_upTo (myid : Nat) (handlers : Handlers) (s : State) (inside : n ≤ numVec)
    {numintr : Int}
    (size : numintr = (List.range numVec).countP ints) :
    (vectorLoop myid handlers ints n 0 numintr ⟨s, []⟩).1 = upTo myid handlers ints s n ∧
      ∀ w, (vectorLoop myid handlers ints n 0 numintr ⟨s, []⟩).2 ≤ w → w < n →
        ints w = false := by
  have fewer : (List.range n).countP ints ≤ (List.range numVec).countP ints :=
    (List.range_sublist.2 inside).countP_le
  have enough : ((List.range' 0 n).countP ints : Int) ≤ numintr := by
    rw [← List.range_eq_range']
    omega
  obtain ⟨same, skipped⟩ := vectorLoop_eq myid handlers ⟨s, []⟩ enough
  rw [← List.range_eq_range'] at same
  exact ⟨same, fun w after before => skipped w after (by omega)⟩

theorem dispatch_log : (p.dispatch myid handlers v).log =
    p.log ++ [⟨v, (p.pic.disable myid v).lvecs myid v, p.pic.disable myid v⟩] := by
  rw [Pass.dispatch]
  split <;> rfl

theorem dispatch_pic : (p.dispatch myid handlers v).pic =
    if (p.pic.disable myid v).lvecs myid v ≠ 0 then
      handlers (p.dispatch myid handlers v).log (p.pic.disable myid v)
    else p.pic.disable myid v := by
  rw [dispatch_log, Pass.dispatch]
  split <;> rfl

/-- What the visits up to `n` have handled. -/
structure Handled (myid : Nat) (handlers : Handlers) (ints : Ints) (s : State) (n : Nat)
    (log : List Dispatch) : Prop where
  increasing : (log.map Dispatch.vec).Pairwise (· < ·)
  handled : ∀ v, v ∈ log.map Dispatch.vec ↔
    v < n ∧ ints v ∧ (upTo myid handlers ints s v).pic.enabled myid v
  handler : ∀ d ∈ log, d.entry = (upTo myid handlers ints s d.vec).pic.disable myid d.vec ∧
    d.handler = d.entry.lvecs myid d.vec

theorem handled (myid : Nat) (handlers : Handlers) (ints : Ints) (s : State) (n : Nat) :
    Handled myid handlers ints s n (upTo myid handlers ints s n).log := by
  induction n with
  | zero => exact ⟨List.Pairwise.nil, by simp [upTo], by simp [upTo]⟩
  | succ n ih =>
      have before : ∀ v, v < n + 1 ↔ v < n ∨ v = n := by omega
      rw [upTo_succ, Pass.visit]
      split
      · rename_i here
        rw [dispatch_log]
        refine ⟨?_, fun v => ?_, fun d member => ?_⟩
        · rw [List.map_append, List.pairwise_append]
          refine ⟨ih.increasing, List.pairwise_singleton _ _, fun v old w new => ?_⟩
          rw [List.map_cons, List.map_nil, List.mem_singleton] at new
          rw [new]
          exact ((ih.handled v).1 old).1
        · rw [List.map_append, List.mem_append, ih.handled, List.map_cons, List.map_nil,
            List.mem_singleton, before]
          constructor
          · rintro (⟨inside, rest⟩ | rfl)
            · exact ⟨.inl inside, rest⟩
            · exact ⟨.inr rfl, here⟩
          · rintro ⟨inside | rfl, rest⟩
            · exact .inl ⟨inside, rest⟩
            · exact .inr rfl
        · obtain old | new := List.mem_append.1 member
          · exact ih.handler d old
          · obtain rfl := List.mem_singleton.1 new
            exact ⟨rfl, rfl⟩
      · rename_i off
        refine ⟨ih.increasing, fun v => ?_, ih.handler⟩
        rw [ih.handled, before]
        constructor
        · exact fun ⟨inside, rest⟩ => ⟨.inl inside, rest⟩
        · rintro ⟨inside | rfl, rest⟩
          · exact ⟨inside, rest⟩
          · exact absurd rest off

/-- The log grows behind what has been handled. -/
theorem log_filter {m : Nat} (upto : n ≤ m) :
    (upTo myid handlers ints s m).log.filter (·.vec < n) = (upTo myid handlers ints s n).log := by
  induction upto with
  | refl =>
      refine List.filter_eq_self.mpr fun d member => ?_
      have inside := ((handled myid handlers ints s n).handled d.vec).1 (List.mem_map_of_mem member)
      simpa using inside.1
  | @step m upto ih =>
      have behind : ¬ m < n := Nat.not_lt.mpr upto
      rw [upTo_succ, Pass.visit]
      split
      · rw [dispatch_log, List.filter_append, ih]
        simp [behind]
      · exact ih

theorem disable_enabled (other : v ≠ rstVec) : (s.disable myid v).enabled myid v = false := by
  rw [State.disable, if_pos other]
  simp [State.setEnabled, State.access]

end

/-- A pass with a set of vectors and their number handles those that are enabled when the
loop gets to them. -/
theorem dispatches (myid : Nat) (handlers : Handlers) (ints : Ints) (s : State) (numintr : Int)
    (size : numintr = (List.range numVec).countP ints) :
    Dispatches myid handlers ints numintr s
      (vectorLoop myid handlers ints numVec 0 numintr ⟨s, []⟩) := by
  obtain ⟨ended, skipped⟩ := vectorLoop_upTo myid handlers s (Nat.le_refl numVec) size
  have visit : ∀ v, v < numVec →
      atVisit myid handlers ints numintr s v = (upTo myid handlers ints s v).pic := by
    intro v inside
    rw [atVisit, (vectorLoop_upTo myid handlers s inside.le size).1]
  have done := handled myid handlers ints s numVec
  have entry : ∀ d ∈ (upTo myid handlers ints s numVec).log,
      d.entry = (atVisit myid handlers ints numintr s d.vec).disable myid d.vec := by
    intro d member
    have inside := ((done.handled d.vec).1 (List.mem_map_of_mem member)).1
    rw [visit _ inside]
    exact (done.handler d member).1
  constructor
  · rw [ended]
    exact done.increasing
  · intro v
    rw [ended, done.handled]
    refine and_congr_right fun inside => ?_
    rw [visit v inside]
  · intro d member
    rw [ended] at member
    exact ⟨entry d member, (done.handler d member).2⟩
  · intro d member other
    rw [ended] at member
    rw [entry d member]
    exact disable_enabled other
  · exact visit 0 (by decide)
  · intro v inside
    rw [visit v inside, atVisit, (vectorLoop_upTo myid handlers s inside size).1, ended]
    have log : (upTo myid handlers ints s numVec).log.filter (·.vec < v + 1) =
        (upTo myid handlers ints s (v + 1)).log := log_filter inside
    simp only [Nat.lt_add_one_iff] at log
    rw [log, upTo_succ, Pass.visit]
    split
    · exact dispatch_pic
    · rfl
  · exact skipped

/-- The handler of vector 1 disables vector 3 and enables vector 4. -/
theorem dispatches_sample : ∃ (handlers : Handlers) (s : State),
    (vectorLoop 0 handlers (fun v => v ∈ [1, 3, 4]) numVec 0 3 ⟨s, []⟩).1.log.map
      (fun d => (d.vec, d.handler)) = [(1, 7), (4, 8)] ∧
    Dispatches 0 handlers (fun v => v ∈ [1, 3, 4]) 3 s
      (vectorLoop 0 handlers (fun v => v ∈ [1, 3, 4]) numVec 0 3 ⟨s, []⟩) := by
  refine ⟨fun _ s => (s.disable 0 3).enable 0 4, { Calls.lrtPicInit 5 2 with
      lvecs := fun _ vec => if vec = 1 then 7 else 8
      enabled := fun _ vec => vec = 1 ∨ vec = 3 }, by decide, dispatches _ _ _ _ _ (by decide)⟩

end EBBLib.Pic.Loop
