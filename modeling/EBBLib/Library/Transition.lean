import Mathlib.Logic.Basic
import Mathlib.Data.Option.Basic

/-!
# Runs of partial step functions

A machine is a predicate of initial states together with a partial step function.
The action carries every choice of the environment, such as which thread moves,
so `none` means that the action is not enabled and a run is simply a list of
actions. Step functions stay executable: a concrete run is evaluated by `exec`.

`ReachVia ok` restricts the runs to those whose every step satisfies `ok` in its
state before the step. The unrestricted notion is the special case `Reach`, and
invariants are proved once for both by induction along the run.
-/

universe u v w

/-- Initial states and an executable partial step function. -/
structure Machine (σ : Type u) (α : Type v) where
  init : σ → Prop
  step : σ → α → Option σ

namespace Machine

variable {σ : Type u} {α : Type v} {M : Machine σ α}
variable {ok ok' : σ → α → Prop} {I J : σ → Prop} {s t : σ}

/-- States reached by a run from an initial state whose steps all satisfy `ok`. -/
inductive ReachVia (M : Machine σ α) (ok : σ → α → Prop) : σ → Prop
  | init {s : σ} (start : M.init s) : M.ReachVia ok s
  | step {s t : σ} {a : α} (before : M.ReachVia ok s) (allowed : ok s a)
      (moved : M.step s a = some t) : M.ReachVia ok t

/-- States reached by any run from an initial state. -/
abbrev Reach (M : Machine σ α) : σ → Prop := M.ReachVia fun _ _ => True

theorem ReachVia.mono (h : M.ReachVia ok s) (weaker : ∀ s a, ok s a → ok' s a) :
    M.ReachVia ok' s := by
  induction h with
  | init start => exact .init start
  | step _ allowed moved ih => exact .step ih (weaker _ _ allowed) moved

theorem ReachVia.reach (h : M.ReachVia ok s) : M.Reach s :=
  h.mono fun _ _ _ => trivial

/-- A step that is enabled, with the state that it computes. -/
theorem ReachVia.next (h : M.ReachVia ok s) (a : α) (allowed : ok s a)
    (enabled : (M.step s a).isSome) : M.ReachVia ok ((M.step s a).get enabled) :=
  .step h allowed (Option.some_get enabled).symm

/-- A step that is enabled by a test of its own. -/
theorem of_guard {p : Prop} {_ : Decidable p} (moved : (if p then some s else none) = some t) :
    p ∧ s = t :=
  (Option.ite_none_right_eq_some.mp moved).imp_right Option.some.inj

/-- The invariant rule. A step may use that its state before the step is reached,
so that invariants proved earlier are available in the proof of a later one. -/
theorem ReachVia.invariant (start : ∀ s, M.init s → I s)
    (preserved : ∀ s a t, M.ReachVia ok s → I s → ok s a → M.step s a = some t → I t)
    (h : M.ReachVia ok s) : I s := by
  induction h with
  | init hs => exact start _ hs
  | step before allowed moved ih => exact preserved _ _ _ before ih allowed moved

/-- Execute a list of actions whose steps satisfy `ok`, stopping at the first one
that does not or that is not enabled. -/
def execVia (M : Machine σ α) (ok : σ → α → Prop) [∀ s a, Decidable (ok s a)] :
    σ → List α → Option σ
  | s, [] => some s
  | s, a :: as => if ok s a then (M.step s a).bind fun t => M.execVia ok t as else none

/-- Execute a list of actions, stopping at the first one that is not enabled. -/
abbrev exec (M : Machine σ α) : σ → List α → Option σ := M.execVia fun _ _ => True

section Exec

variable [∀ s a, Decidable (ok s a)]

@[simp] theorem execVia_nil (s : σ) : M.execVia ok s [] = some s := rfl

@[simp] theorem execVia_cons (s : σ) (a : α) (as : List α) :
    M.execVia ok s (a :: as) =
      if ok s a then (M.step s a).bind fun t => M.execVia ok t as else none := rfl

/-- An executed list of actions begins with a step. -/
theorem execVia_cons_iff {a : α} {as : List α} : M.execVia ok s (a :: as) = some t ↔
    ok s a ∧ ∃ middle, M.step s a = some middle ∧ M.execVia ok middle as = some t := by
  rw [execVia_cons, Option.ite_none_right_eq_some, Option.bind_eq_some_iff]

/-- The first action of a list is taken. -/
theorem exec_cons {a : α} {as : List α} (moved : M.step s a = some t) :
    M.exec s (a :: as) = M.exec t as := by
  simp only [execVia_cons, if_true, moved, Option.bind_some]

theorem exec_one {a : α} : M.exec s [a] = some t ↔ M.step s a = some t := by
  refine ⟨fun run => ?_, fun moved => execVia_cons_iff.mpr ⟨trivial, t, moved, rfl⟩⟩
  obtain ⟨_, middle, moved, rest⟩ := execVia_cons_iff.mp run
  exact moved.trans rest

/-- An executed list of actions is a run. -/
theorem ReachVia.execVia {as : List α} (h : M.ReachVia ok s)
    (run : M.execVia ok s as = some t) : M.ReachVia ok t := by
  induction as generalizing s with
  | nil =>
      rw [execVia_nil, Option.some.injEq] at run
      exact run ▸ h
  | cons a as ih =>
      obtain ⟨allowed, middle, moved, rest⟩ := execVia_cons_iff.mp run
      exact ih (.step h allowed moved) rest

/-- What each step preserves, an executed list of actions preserves. -/
theorem execVia_preserves {as : List α} (run : M.execVia ok s as = some t) (start : I s)
    (preserved : ∀ s a t, I s → ok s a → M.step s a = some t → I t) : I t := by
  induction as generalizing s with
  | nil =>
      rw [execVia_nil, Option.some.injEq] at run
      exact run ▸ start
  | cons a as ih =>
      obtain ⟨allowed, middle, moved, rest⟩ := execVia_cons_iff.mp run
      exact ih rest (preserved s a middle start allowed moved)

theorem execVia_mono {as : List α} [∀ s a, Decidable (ok' s a)] (run : M.execVia ok s as = some t)
    (weaker : ∀ s a, ok s a → ok' s a) : M.execVia ok' s as = some t := by
  induction as generalizing s with
  | nil => exact run
  | cons a as ih =>
      obtain ⟨allowed, middle, moved, rest⟩ := execVia_cons_iff.mp run
      exact execVia_cons_iff.mpr ⟨weaker s a allowed, middle, moved, ih rest⟩

theorem reachVia_of_execVia {as : List α} (start : M.init s)
    (run : M.execVia ok s as = some t) : M.ReachVia ok t :=
  ReachVia.execVia (.init start) run

end Exec

/-- An executed list of actions that all satisfy `ok` in every state goes on with a run. -/
theorem ReachVia.exec {as : List α} (h : M.ReachVia ok s) (run : M.exec s as = some t)
    (allowed : ∀ a ∈ as, ∀ s, ok s a) : M.ReachVia ok t := by
  induction as generalizing s with
  | nil => exact Option.some.inj run ▸ h
  | cons a as ih =>
      rw [List.forall_mem_cons] at allowed
      obtain ⟨_, middle, moved, rest⟩ := execVia_cons_iff.mp run
      exact ih (.step h (allowed.1 s) moved) rest allowed.2

end Machine
