import Mathlib.Data.List.Basic
import Mathlib.Order.Lattice

/-!
# The leftmost least element

A scan for the least of the free elements of a list keeps the best one so far and replaces
it only by a smaller one. `Leftmost` says what it has found in the part of the list that it
has seen, and there is a rule for each thing that the next element can do.
-/

universe u v

variable {α : Type u} {κ : Type v} [LinearOrder κ] (free : α → Prop) (key : α → κ)

/-- Position `i` holds `a`, which is least among the free elements, and no free element
before it has the same key. -/
structure Leftmost (xs : List α) (i : Nat) (a : α) : Prop where
  here : xs[i]? = some a
  isFree : free a
  least : ∀ b ∈ xs, free b → key a ≤ key b
  first : ∀ j < i, ∀ b, xs[j]? = some b → free b → key a < key b

namespace Leftmost

variable {free key} {xs ys : List α} {i j : Nat} {a b : α}

theorem lt (found : Leftmost free key xs i a) : i < xs.length :=
  (List.getElem?_eq_some_iff.mp found.here).1

theorem not_lt (found : Leftmost free key xs i a) (found' : Leftmost free key xs j b) :
    ¬ i < j := by
  intro before
  have smaller := found'.first i before a found.here found.isFree
  have least := found.least b (List.mem_of_getElem? found'.here) found'.isFree
  exact absurd least (not_le_of_gt smaller)

/-- There is one leftmost least element. -/
theorem unique (found : Leftmost free key xs i a) (found' : Leftmost free key xs j b) : i = j :=
  Nat.le_antisymm (Nat.le_of_not_lt (found'.not_lt found)) (Nat.le_of_not_lt (found.not_lt found'))

/-- The next element does not replace the best one so far. -/
theorem keep (found : Leftmost free key xs i a) (other : free b → key a ≤ key b) :
    Leftmost free key (xs ++ [b]) i a := by
  refine ⟨?_, found.isFree, fun c mem isFree => ?_, fun j before c here isFree => ?_⟩
  · rw [List.getElem?_append_left found.lt, found.here]
  · rcases List.mem_append.mp mem with mem | mem
    · exact found.least c mem isFree
    · obtain rfl := List.mem_singleton.mp mem
      exact other isFree
  · rw [List.getElem?_append_left (Nat.lt_trans before found.lt)] at here
    exact found.first j before c here isFree

/-- A free element that is below all free ones before it, and above none after it. -/
theorem middle (isFree : free b) (before : ∀ c ∈ xs, free c → key b < key c)
    (after : ∀ c ∈ ys, free c → key b ≤ key c) :
    Leftmost free key (xs ++ b :: ys) xs.length b := by
  refine ⟨by simp, isFree, fun c mem isFree => ?_, fun j left c here isFree => ?_⟩
  · rcases List.mem_append.mp mem with mem | mem
    · exact le_of_lt (before c mem isFree)
    · rcases List.mem_cons.mp mem with rfl | mem
      · exact le_rfl
      · exact after c mem isFree
  · rw [List.getElem?_append_left left] at here
    exact before c (List.mem_of_getElem? here) isFree

/-- The next element is smaller than the best one so far. -/
theorem replace (found : Leftmost free key xs i a) (isFree : free b) (smaller : key b < key a) :
    Leftmost free key (xs ++ [b]) xs.length b :=
  middle isFree (fun c mem isFree => lt_of_lt_of_le smaller (found.least c mem isFree))
    fun _ mem => absurd mem List.not_mem_nil

/-- The first free element so far. -/
theorem start (isFree : free b) (none : ∀ c ∈ xs, ¬ free c) :
    Leftmost free key (xs ++ [b]) xs.length b :=
  middle isFree (fun c mem isFree => absurd isFree (none c mem))
    fun _ mem => absurd mem List.not_mem_nil

end Leftmost
