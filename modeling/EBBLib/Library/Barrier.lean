import EBBLib.Library.Transition
import Mathlib.Data.Fintype.Basic
import Mathlib.Logic.Function.Basic
import Mathlib.Order.Basic

/-!
# Barriers

Callers enter a barrier and leave it, any number of times. A barrier lets nobody leave a call
before everybody has entered the call with the same number. Then callers that are outside of it
have made equally many calls: what they do between two calls never overlaps with what others do
between two other calls.
-/

namespace Barrier

/-- What is seen of a barrier. -/
inductive Event (C : Type*) where
  | enter (c : C)
  | leave (c : C)
deriving DecidableEq

/-- How often each caller has entered and left. -/
structure Calls (C : Type*) where
  entered : C → Nat
  left : C → Nat

section

variable {C : Type*} [DecidableEq C] (s : Calls C) (c d : C)

def Calls.enter : Calls C :=
  { s with entered := Function.update s.entered c (s.entered c + 1) }

def Calls.leave : Calls C := { s with left := Function.update s.left c (s.left c + 1) }

@[simp] theorem Calls.enter_entered :
    (s.enter c).entered d = if d = c then s.entered c + 1 else s.entered d :=
  Function.update_apply ..

@[simp] theorem Calls.enter_left : (s.enter c).left d = s.left d := rfl

@[simp] theorem Calls.leave_entered : (s.leave c).entered d = s.entered d := rfl

@[simp] theorem Calls.leave_left :
    (s.leave c).left d = if d = c then s.left c + 1 else s.left d :=
  Function.update_apply ..

end

variable {C : Type*} {s t : Calls C}

/-- The barrier. -/
def Calls.step [DecidableEq C] [Fintype C] (s : Calls C) : Event C → Option (Calls C)
  | .enter c => if s.entered c = s.left c then some (s.enter c) else none
  | .leave c =>
      if s.entered c = s.left c + 1 ∧ ∀ d, s.entered c ≤ s.entered d then some (s.leave c) else none

/-- Nobody has called it at first. -/
def calls (C : Type*) [DecidableEq C] [Fintype C] : Machine (Calls C) (Event C) where
  init s := ∀ c, s.entered c = 0 ∧ s.left c = 0
  step s e := s.step e

/-- Everybody has entered all the calls that anybody has left. -/
structure Calls.Separates (s : Calls C) : Prop where
  once : ∀ c, s.left c ≤ s.entered c ∧ s.entered c ≤ s.left c + 1
  together : ∀ c d, s.left c ≤ s.entered d

/-- Callers that are outside have made equally many calls. -/
theorem Calls.Separates.left_eq (h : s.Separates) {c d : C} (first : s.entered c = s.left c)
    (second : s.entered d = s.left d) : s.left c = s.left d :=
  Nat.le_antisymm (second ▸ h.together c d) (first ▸ h.together d c)

variable [DecidableEq C] [Fintype C]

theorem Calls.Separates.step {e : Event C} (h : s.Separates) (moved : s.step e = some t) :
    t.Separates := by
  cases e with
  | enter c =>
      simp only [Calls.step, Option.ite_none_right_eq_some, Option.some.injEq] at moved
      obtain ⟨outside, rfl⟩ := moved
      refine ⟨fun d => ?_, fun d e => ?_⟩
      · have once := h.once d
        by_cases same : d = c
        · subst same
          simp only [enter_left, enter_entered, if_true]
          omega
        · simpa [same] using once
      · have together := h.together d e
        rw [enter_left, enter_entered]
        split_ifs with same
        · subst same
          exact Nat.le_succ_of_le together
        · exact together
  | leave c =>
      simp only [Calls.step, Option.ite_none_right_eq_some, Option.some.injEq] at moved
      obtain ⟨⟨inside, all⟩, rfl⟩ := moved
      refine ⟨fun d => ?_, fun d e => ?_⟩
      · have once := h.once d
        by_cases same : d = c
        · subst same
          simp only [leave_left, leave_entered, if_true]
          omega
        · simpa [same] using once
      · rw [leave_left, leave_entered]
        split_ifs
        · exact inside ▸ all e
        · exact h.together d e

theorem reach_separates (reached : (calls C).Reach s) : s.Separates := by
  induction reached with
  | init start =>
      refine ⟨fun c => ?_, fun c d => ?_⟩
      · rw [(start c).1, (start c).2]
        exact ⟨Nat.le_refl 0, Nat.zero_le _⟩
      · rw [(start c).2]
        exact Nat.zero_le _
  | step _ _ moved ih => exact ih.step moved

end Barrier
