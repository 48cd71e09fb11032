import Mathlib.Data.List.Basic
import Mathlib.Data.List.Perm.Basic

/-!
# Pools of threads

The threads of a program in a list, so that a thread is an index and new threads come
at the end. A step of one thread replaces one entry.
-/

universe u v

namespace Pool

variable {τ : Type u} {β : Type v} {pool : List τ} {i : Nat} {x y z : τ}

/-- The threads before and after the one that moves. -/
theorem exists_split (here : pool[i]? = some x) :
    ∃ l r, pool = l ++ x :: r ∧ ∀ y, pool.set i y = l ++ y :: r := by
  obtain ⟨lt, rfl⟩ := List.getElem?_eq_some_iff.mp here
  refine ⟨pool.take i, pool.drop (i + 1), ?_, fun y => ?_⟩
  · rw [List.getElem_cons_drop, List.take_append_drop]
  · exact List.set_eq_take_append_cons_drop.trans (if_pos lt)

theorem mem_set (here : pool[i]? = some x) (member : z ∈ pool.set i y) : z = y ∨ z ∈ pool := by
  obtain ⟨l, r, rfl, set⟩ := exists_split here
  rw [set] at member
  simp only [List.mem_append, List.mem_cons] at member ⊢
  tauto

/-- The other threads stay. -/
theorem mem_of_mem (here : pool[i]? = some x) (member : z ∈ pool) : z = x ∨ z ∈ pool.set i y := by
  obtain ⟨l, r, rfl, set⟩ := exists_split here
  rw [set]
  simp only [List.mem_append, List.mem_cons] at member ⊢
  tauto

theorem mem_self (here : pool[i]? = some x) : y ∈ pool.set i y := by
  obtain ⟨l, r, _, set⟩ := exists_split here
  rw [set]
  exact List.mem_append_right l List.mem_cons_self

theorem set_self (here : pool[i]? = some x) : pool.set i x = pool := by
  obtain ⟨l, r, rfl, set⟩ := exists_split here
  exact set x

/-- What the threads have stays the same when the thread that moves has the same. -/
theorem filterMap_set {f : τ → Option β} (here : pool[i]? = some x) (same : f y = f x) :
    (pool.set i y).filterMap f = pool.filterMap f := by
  obtain ⟨l, r, rfl, set⟩ := exists_split here
  rw [set, List.filterMap_append, List.filterMap_append, List.filterMap_cons, List.filterMap_cons,
    same]

/-- A thread that had nothing gets something. -/
theorem filterMap_set_perm {f : τ → Option β} {b : β} (here : pool[i]? = some x)
    (none : f x = none) (some : f y = some b) :
    ((pool.set i y).filterMap f).Perm (b :: pool.filterMap f) := by
  obtain ⟨l, r, rfl, set⟩ := exists_split here
  rw [set, List.filterMap_append, List.filterMap_append, List.filterMap_cons_some some,
    List.filterMap_cons_none none]
  exact List.perm_middle

theorem countP_set {p : τ → Bool} (here : pool[i]? = some x) :
    (pool.set i y).countP p + (if p x then 1 else 0) =
      pool.countP p + if p y then 1 else 0 := by
  obtain ⟨l, r, rfl, set⟩ := exists_split here
  rw [set]
  simp only [List.countP_append, List.countP_cons]
  omega

/-- At most one thread has a property. -/
theorem eq_of_countP_le_one {p : τ → Bool} (here : pool[i]? = some x) (holds : p x)
    (one : pool.countP p ≤ 1) (member : z ∈ pool) (holds' : p z) : z = x := by
  obtain ⟨l, r, rfl, _⟩ := exists_split here
  rw [List.countP_append, List.countP_cons_of_pos holds] at one
  have left : l.countP p = 0 := by omega
  have right : r.countP p = 0 := by omega
  simp only [List.mem_append, List.mem_cons] at member
  obtain before | rfl | after := member
  · exact absurd holds' (List.countP_eq_zero.mp left z before)
  · rfl
  · exact absurd holds' (List.countP_eq_zero.mp right z after)

end Pool
