import EBBLib.Library.Refinement
import Mathlib.Data.List.Basic
import Mathlib.Logic.Function.Basic

/-!
# A first-in-first-out buffer

Elements are put one at a time and taken in runs of any length. What is taken is what was put,
in the same order, up to what is still in the buffer.
-/

namespace Fifo

/-! ### Elements in an array -/

section

variable {α : Type*} {a b : Nat → α} {start len : Nat} {x : α}

/-- The elements of an array from a place on. -/
def slice (a : Nat → α) (start len : Nat) : List α := (List.range' start len).map a

@[simp] theorem length_slice : (slice a start len).length = len := by simp [slice]

theorem slice_append (m n : Nat) :
    slice a start (m + n) = slice a start m ++ slice a (start + m) n := by
  rw [slice, slice, slice, ← List.map_append, List.range'_append_1]

theorem slice_succ : slice a start (len + 1) = slice a start len ++ [a (start + len)] :=
  slice_append len 1

theorem slice_congr (same : ∀ i, start ≤ i → i < start + len → a i = b i) :
    slice a start len = slice b start len := by
  refine List.map_congr_left fun i member => ?_
  obtain ⟨low, high⟩ := List.mem_range'_1.mp member
  exact same i low high

/-- An element is stored behind the others. -/
theorem slice_push : slice (Function.update a (start + len) x) start (len + 1) =
    slice a start len ++ [x] := by
  rw [slice_succ, Function.update_self]
  refine congrArg (· ++ [x]) (slice_congr fun i _ high => ?_)
  exact Function.update_of_ne (by omega) ..

end

/-! ### The buffer -/

inductive Event (α : Type*) where
  | put (x : α)
  | take (xs : List α)
deriving DecidableEq

variable {α : Type*} [DecidableEq α]

def step (q : List α) : Event α → Option (List α)
  | .put x => some (q ++ [x])
  | .take xs => if xs <+: q then some (q.drop xs.length) else none

/-- The buffer, which is empty at first. -/
def fifo (α : Type*) [DecidableEq α] : Machine (List α) (Event α) where
  init q := q = []
  step := step

theorem step_take (xs q : List α) : step (xs ++ q) (.take xs) = some q := by
  rw [step, if_pos (List.prefix_append xs q), List.drop_left]

/-- Elements that are put one after the other. -/
theorem exec_puts (q xs : List α) : (fifo α).exec q (xs.map .put) = some (q ++ xs) := by
  induction xs generalizing q with
  | nil => rw [List.append_nil]; rfl
  | cons x xs ih =>
      rw [List.map_cons, Machine.exec_cons (rfl : (fifo α).step q (.put x) = some (q ++ [x])), ih,
        List.append_assoc]
      rfl

end Fifo
