import Mathlib.Data.List.Nodup
import Mathlib.Logic.Function.Basic

/-!
# Linked lists in a store

`Linked next p xs` follows the links `next` from `p`, visits exactly the nodes `xs`
and ends at the null address 0. Several lists may live in one store of links: an
operation on one of them keeps every list that does not contain the node it writes.
-/

namespace Chain

/-- The links from `p` visit the nodes `xs` and end at 0. -/
def Linked (next : Nat → Nat) : Nat → List Nat → Prop
  | p, [] => p = 0
  | p, a :: xs => p = a ∧ a ≠ 0 ∧ Linked next (next a) xs

instance decidableLinked (next : Nat → Nat) : (p : Nat) → (xs : List Nat) →
    Decidable (Linked next p xs)
  | p, [] => inferInstanceAs (Decidable (p = 0))
  | p, a :: xs =>
      have := decidableLinked next (next a) xs
      inferInstanceAs (Decidable (p = a ∧ a ≠ 0 ∧ Linked next (next a) xs))

section

variable {next next' : Nat → Nat} {p a b : Nat} {xs ys : List Nat}

@[simp] theorem linked_nil : Linked next p [] ↔ p = 0 := Iff.rfl

@[simp] theorem linked_cons :
    Linked next p (a :: xs) ↔ p = a ∧ a ≠ 0 ∧ Linked next (next a) xs := Iff.rfl

/-- The nodes are determined by the first address. -/
theorem Linked.unique (h : Linked next p xs) (h' : Linked next p ys) : xs = ys := by
  induction xs generalizing p ys with
  | nil =>
      cases ys with
      | nil => rfl
      | cons b ys => exact absurd (h'.1.symm.trans h) h'.2.1
  | cons a xs ih =>
      obtain ⟨rfl, nonzero, rest⟩ := h
      cases ys with
      | nil => exact absurd h' nonzero
      | cons b ys =>
          obtain ⟨rfl, _, rest'⟩ := h'
          rw [ih rest rest']

/-- A list that does not start at 0 starts with its first node. -/
theorem Linked.eq_cons (h : Linked next p xs) (nonzero : p ≠ 0) :
    ∃ ys, xs = p :: ys ∧ Linked next (next p) ys := by
  cases xs with
  | nil => exact absurd h nonzero
  | cons a ys =>
      obtain ⟨rfl, _, rest⟩ := h
      exact ⟨ys, rfl, rest⟩

/-- The rest of a list behind one of its nodes is a list. -/
theorem Linked.suffix (ws : List Nat) (h : Linked next p (ws ++ a :: xs)) :
    Linked next a (a :: xs) := by
  induction ws generalizing p with
  | nil =>
      obtain ⟨rfl, rest⟩ := h
      exact ⟨rfl, rest⟩
  | cons w ws ih => exact ih h.2.2

/-- No node occurs twice, since the list behind a node is determined by the node. -/
theorem Linked.nodup (h : Linked next p xs) : xs.Nodup := by
  induction xs generalizing p with
  | nil => exact List.nodup_nil
  | cons a xs ih =>
      refine List.nodup_cons.mpr ⟨fun again => ?_, ih h.2.2⟩
      obtain ⟨front, back, split⟩ := List.append_of_mem again
      have first : Linked next a (a :: xs) := ⟨rfl, h.2⟩
      have second : Linked next a (a :: back) := by
        rw [split] at first
        exact Linked.suffix (a :: front) first
      have same := congrArg List.length (first.unique second)
      rw [split] at same
      simp only [List.length_cons, List.length_append] at same
      omega

/-- Links outside a list do not matter to it. -/
theorem Linked.frame (h : Linked next p xs) (agree : ∀ a ∈ xs, next' a = next a) :
    Linked next' p xs := by
  induction xs generalizing p with
  | nil => exact h
  | cons a xs ih =>
      obtain ⟨start, nonzero, rest⟩ := h
      refine ⟨start, nonzero, ?_⟩
      rw [agree a (by simp)]
      exact ih rest fun b mem => agree b (by simp [mem])

theorem Linked.update (h : Linked next p xs) (outside : a ∉ xs) (v : Nat) :
    Linked (Function.update next a v) p xs :=
  h.frame fun _ mem => Function.update_of_ne (ne_of_mem_of_not_mem mem outside) v next

/-- Prepend a node. -/
theorem Linked.push (h : Linked next p xs) (nonzero : a ≠ 0) (outside : a ∉ xs) :
    Linked (Function.update next a p) a (a :: xs) := by
  refine ⟨rfl, nonzero, ?_⟩
  rw [Function.update_self]
  exact h.update outside p

end

end Chain
