import EBBLib.Root.Misses

/-!
# Walking along the representatives

`nextRep` takes no lock. An iteration calls it with null first and then with the node that
it has returned, until it returns null, while the list grows at its front. So an iteration
comes by the nodes that are on the list at its first call, and by no others.
-/

namespace EBBLib.Root.Walk

open CObjEBBRootMultiImp
open Misses (Nodes)

section

variable {ρ : Type}

/-- The root, and how far the iteration has come. -/
structure State (ρ : Type) where
  misses : Misses.State ρ
  curr : Nat
  ended : Bool
  /-- The nodes and representatives that the calls have returned, and the number of calls. -/
  returned : List (Nat × Nat)
  calls : Nat

inductive Action where
  | nextRep
  | misses (a : Misses.Action)
deriving DecidableEq, Repr

namespace State

variable (w : State ρ)

/-- The next call of the iteration. -/
def next : State ρ :=
  let (node, rep) := CObjEBBRootMultiImp.nextRep w.misses.heap w.misses.root w.curr
  let w := { w with curr := node, calls := w.calls + 1 }
  if node = 0 then { w with ended := true } else { w with returned := w.returned ++ [(node, rep)] }

def step (createRep : Nat → ρ → Nat × ρ) : Action → Option (State ρ)
  | .nextRep => if w.ended then none else some w.next
  | .misses a => (w.misses.step createRep a).map fun misses => { w with misses }

end State

/-- The iteration has made its first call. -/
def first (s : Misses.State ρ) : State ρ :=
  State.next { misses := s, curr := 0, ended := false, returned := [], calls := 0 }

def machine (createRep : Nat → ρ → Nat × ρ) : Machine (State ρ) Action where
  init w := ∃ s xs, Nodes s xs ∧ w = first s
  step w := w.step createRep

/-- The nodes of a list with their representatives. -/
def pairs (h : Heap) (xs : List Nat) : List (Nat × Nat) := xs.map fun a => (a, (h.node a).rep)

/-- What an iteration that has begun with the list `xs` has returned. -/
structure Safe (s : Misses.State ρ) (xs : List Nat) (w : State ρ) : Prop where
  /-- The nodes come in the order of the list. -/
  returned : w.returned = (pairs s.heap xs).take w.calls
  nodes : (w.returned.map Prod.fst).Nodup
  /-- A representative comes as often as it is on the list. -/
  reps : (reps s.heap xs).Nodup → (w.returned.map Prod.snd).Nodup
  calls : w.calls ≤ xs.length + 1
  ended : w.ended ↔ w.calls = xs.length + 1

variable {createRep : Nat → ρ → Nat × ρ} {s : Misses.State ρ} {w v : State ρ} {xs : List Nat}

/-- The iteration has the nodes `rest` before it. -/
structure Ahead (s : Misses.State ρ) (xs : List Nat) (w : State ρ) (front rest : List Nat) :
    Prop where
  split : xs = front ++ rest
  listed : ∃ new, Nodes w.misses (new ++ xs)
  same : ∀ a ∈ xs, w.misses.heap.node a = s.heap.node a
  returned : w.returned = pairs s.heap front
  calls : w.calls = front.length + if w.ended then 1 else 0
  ended : w.ended → rest = []
  curr : ¬ w.ended → ∃ before, front = before ++ [w.curr]

theorem first_ahead (nodes : Nodes s xs) : ∃ front rest, Ahead s xs (first s) front rest := by
  have call := nextRep_head nodes.registers
  cases xs with
  | nil =>
      refine ⟨[], [], rfl, ⟨[], ?_⟩, nofun, ?_, ?_, fun _ => rfl, ?_⟩ <;>
        simp [first, State.next, call, pairs, nodes]
  | cons a xs =>
      have nonzero : a ≠ 0 := nodes.registers.linked.2.1
      refine ⟨[a], xs, rfl, ⟨[], ?_⟩, fun _ _ => ?_, ?_, ?_, ?_, fun _ => ⟨[], ?_⟩⟩ <;>
        simp [first, State.next, call, nonzero, pairs, nodes]

theorem Ahead.next {front rest : List Nat} (ahead : Ahead s xs w front rest)
    (active : w.ended = false) : ∃ front' rest', Ahead s xs w.next front' rest' := by
  obtain ⟨new, nodes⟩ := ahead.listed
  obtain ⟨before, last⟩ := ahead.curr (by simp [active])
  have linked : Chain.Linked w.misses.heap.next w.curr (w.curr :: rest) := by
    have whole := nodes.registers.linked
    rw [ahead.split, last, List.append_assoc, ← List.append_assoc] at whole
    exact whole.suffix (new ++ before)
  have call := nextRep_node w.misses.root linked
  cases rest with
  | nil =>
      refine ⟨front, [], ahead.split, ⟨new, ?_⟩, fun a member => ?_, ?_, ?_, fun _ => rfl, ?_⟩
      all_goals simp only [State.next, call, List.headD_nil, if_true]
      · exact nodes
      · exact ahead.same a member
      · exact ahead.returned
      · simp [ahead.calls, active]
      · simp
  | cons a rest =>
      have nonzero : a ≠ 0 := linked.2.2.2.1
      have member : a ∈ xs := by simp [ahead.split]
      refine ⟨front ++ [a], rest, by simp [ahead.split], ⟨new, ?_⟩, fun a member => ?_, ?_, ?_, ?_,
        fun _ => ⟨front, ?_⟩⟩
      all_goals simp only [State.next, call, List.headD_cons, if_neg nonzero]
      · exact nodes
      · exact ahead.same a member
      · simp [ahead.returned, pairs, ahead.same a member]
      · simp [ahead.calls, active]
      · simp [active]

theorem Ahead.misses {front rest : List Nat} {a : Misses.Action} {misses : Misses.State ρ}
    (ahead : Ahead s xs w front rest) (moved : w.misses.step createRep a = some misses) :
    Ahead s xs { w with misses } front rest := by
  obtain ⟨new, nodes⟩ := ahead.listed
  obtain ⟨newer, nodes', same⟩ := nodes.step moved
  refine ⟨ahead.split, ⟨newer ++ new, ?_⟩, fun b member => ?_, ahead.returned, ahead.calls,
    ahead.ended, ahead.curr⟩
  · rw [List.append_assoc]
    exact nodes'
  · rw [same b (List.mem_append_right _ member), ahead.same b member]

theorem ahead {as : List Action} (nodes : Nodes s xs)
    (run : (machine createRep).exec (first s) as = some w) :
    ∃ front rest, Ahead s xs w front rest := by
  apply Machine.execVia_preserves (I := fun w => ∃ front rest, Ahead s xs w front rest) run
    (first_ahead nodes)
  rintro w a v ⟨front, rest, ahead⟩ - moved
  cases a with
  | nextRep =>
      obtain ⟨active, moved⟩ := Option.ite_none_left_eq_some.mp moved
      obtain rfl := Option.some.inj moved
      exact ahead.next (by simpa using active)
  | misses a =>
      obtain ⟨misses, inner, rfl⟩ := Option.map_eq_some_iff.mp moved
      exact ⟨front, rest, ahead.misses inner⟩

/-- An iteration is safe, whatever is added to the list in the meantime. -/
theorem safe {as : List Action} (nodes : Nodes s xs)
    (run : (machine createRep).exec (first s) as = some w) : Safe s xs w := by
  obtain ⟨front, rest, ahead⟩ := ahead nodes run
  have whole : pairs s.heap xs = pairs s.heap front ++ pairs s.heap rest := by
    rw [ahead.split, pairs, List.map_append]
    rfl
  have length : (pairs s.heap front).length = front.length := List.length_map ..
  have distinct : (pairs s.heap front).map Prod.fst = front := by simp [pairs, Function.comp_def]
  have total : xs.length = front.length + rest.length := by rw [ahead.split, List.length_append]
  constructor
  · rw [ahead.returned, ahead.calls, whole]
    by_cases ended : w.ended
    · have none : pairs s.heap rest = [] := by rw [ahead.ended ended, pairs, List.map_nil]
      rw [none, List.append_nil, List.take_of_length_le (by omega)]
    · have upto : front.length + (if w.ended then 1 else 0) = (pairs s.heap front).length := by
        simp [ended, length]
      rw [upto, List.take_left]
  · rw [ahead.returned, distinct]
    have nodup := nodes.registers.linked.nodup
    rw [ahead.split] at nodup
    exact nodup.of_append_left
  · intro nodup
    rw [ahead.split, reps, List.map_append] at nodup
    rw [ahead.returned]
    simpa [pairs, Function.comp_def] using nodup.of_append_left
  · rw [ahead.calls, total]
    split <;> omega
  · rw [ahead.calls, total]
    by_cases ended : w.ended
    · simp [ended, ahead.ended ended]
    · obtain ⟨before, last⟩ := ahead.curr ended
      simp only [ended, if_false, Bool.false_eq_true, false_iff]
      omega

end

/-- A representative that is registered for two cores comes twice, and the iteration over the
two nodes ends with its third call. -/
theorem exists_twice : ∃ s w, (Misses.machine Misses.sampleRep).exec Misses.sample
      [.addRepOn 0 7 1, .addRepOn 1 7 2] = some s ∧ Registers s.heap s.root [2, 1] ∧
    (machine Misses.sampleRep).exec (first s) [.nextRep, .nextRep] = some w ∧ w.ended ∧
      w.calls = 3 ∧ w.returned = [(2, 7), (1, 7)] :=
  ⟨_, _, rfl, ⟨by decide, rfl⟩, rfl, rfl, rfl, rfl⟩

end EBBLib.Root.Walk
