import Mathlib.Data.Option.Basic

/-!
# Runs with outputs

A partial step function that consumes an input and produces an output. A relation
between the states of two such functions that every step of the first preserves,
with the same output on the second, makes the outputs of whole runs agree.
-/

namespace Transducer

variable {σ τ ι κ ο : Type*}

/-- Feed a list of inputs and collect the outputs. -/
def run (step : σ → ι → Option (σ × ο)) : σ → List ι → Option (σ × List ο)
  | s, [] => some (s, [])
  | s, i :: is =>
      (step s i).bind fun (t, o) => (run step t is).map fun (u, os) => (u, o :: os)

variable {step : σ → ι → Option (σ × ο)} {step' : τ → κ → Option (τ × ο)}

@[simp] theorem run_nil (s : σ) : run step s [] = some (s, []) := rfl

theorem run_cons_eq_some {s u : σ} {i : ι} {is : List ι} {os : List ο} :
    run step s (i :: is) = some (u, os) ↔
      ∃ t o os', step s i = some (t, o) ∧ run step t is = some (u, os') ∧ os = o :: os' := by
  simp only [run, Option.bind_eq_some_iff, Option.map_eq_some_iff, Prod.exists, Prod.mk.injEq]
  constructor
  · rintro ⟨t, o, moved, u', os', rest, rfl, rfl⟩
    exact ⟨t, o, os', moved, rest, rfl⟩
  · rintro ⟨t, o, os', moved, rest, rfl⟩
    exact ⟨t, o, moved, u, os', rest, rfl, rfl⟩

theorem run_cons {s t u : σ} {i : ι} {is : List ι} {o : ο} {os : List ο}
    (moved : step s i = some (t, o)) (rest : run step t is = some (u, os)) :
    run step s (i :: is) = some (u, o :: os) :=
  run_cons_eq_some.mpr ⟨t, o, os, moved, rest, rfl⟩

/-- The simulation rule for outputs. -/
theorem run_simulates {R : σ → τ → Prop} {f : ι → κ}
    (simulates : ∀ s t i s' o, R s t → step s i = some (s', o) →
      ∃ t', step' t (f i) = some (t', o) ∧ R s' t')
    {s u : σ} {t : τ} {is : List ι} {os : List ο} (related : R s t)
    (ran : run step s is = some (u, os)) :
    ∃ v, run step' t (is.map f) = some (v, os) ∧ R u v := by
  induction is generalizing s t os with
  | nil =>
      rw [run_nil, Option.some.injEq, Prod.mk.injEq] at ran
      obtain ⟨rfl, rfl⟩ := ran
      exact ⟨t, rfl, related⟩
  | cons i is ih =>
      obtain ⟨s', o, os', moved, rest, rfl⟩ := run_cons_eq_some.mp ran
      obtain ⟨t', moved', related'⟩ := simulates s t i s' o related moved
      obtain ⟨v, rest', final⟩ := ih related' rest
      exact ⟨v, run_cons moved' rest', final⟩

/-- A function between the states that commutes with every step commutes with the runs, also
with those that stop. -/
theorem run_commutes {I : σ → Prop} {f : σ → τ} {g : ι → κ}
    (commutes : ∀ s i, I s → (step s i).map (fun r => (f r.1, r.2)) = step' (f s) (g i))
    (preserved : ∀ s i t o, I s → step s i = some (t, o) → I t) {s : σ} {is : List ι}
    (start : I s) :
    (run step s is).map (fun r => (f r.1, r.2)) = run step' (f s) (is.map g) := by
  induction is generalizing s with
  | nil => rfl
  | cons i is ih =>
      have first := commutes s i start
      cases moved : step s i with
      | none =>
          rw [moved, Option.map_none] at first
          simp only [List.map_cons, run, moved, ← first, Option.bind_none, Option.map_none]
      | some r =>
          rw [moved, Option.map_some] at first
          have rest := ih (preserved s i r.1 r.2 start moved)
          simp only [List.map_cons, run, moved, ← first, Option.bind_some, ← rest, Option.map_map]
          rfl

/-- The progress rule: a relation that may depend on the inputs to come, and under which
both functions step with the same output, makes both runs complete. -/
theorem run_completes {R : σ → τ → List ι → Prop} {f : ι → κ}
    (progresses : ∀ s t i is, R s t (i :: is) →
      ∃ s' t' o, step s i = some (s', o) ∧ step' t (f i) = some (t', o) ∧ R s' t' is)
    {s : σ} {t : τ} {is : List ι} (related : R s t is) :
    ∃ u v os, run step s is = some (u, os) ∧ run step' t (is.map f) = some (v, os) := by
  induction is generalizing s t with
  | nil => exact ⟨s, t, [], rfl, rfl⟩
  | cons i is ih =>
      obtain ⟨s', t', o, moved, moved', related'⟩ := progresses s t i is related
      obtain ⟨u, v, os, rest, rest'⟩ := ih related'
      exact ⟨u, v, o :: os, run_cons moved rest, run_cons moved' rest'⟩

end Transducer
