import EBBLib.Library.Transition

/-!
# Runs that are seen through events

Each step of a machine shows some events, possibly none. The machine refines another one whose
actions are the events when a relation between their states is kept: every step of the first
can be answered by the second with the events that the step shows. Then what a whole run shows
is a run of the second machine.
-/

universe u v w z

namespace Machine

variable {σ : Type u} {α : Type v} {τ : Type w} {ε : Type z}

/-- The events of a list of actions. -/
def events (M : Machine σ α) (shows : σ → α → σ → List ε) : σ → List α → List ε
  | _, [] => []
  | s, a :: as =>
      match M.step s a with
      | some t => shows s a t ++ events M shows t as
      | none => []

section

variable {M : Machine σ α} {N : Machine τ ε} {shows : σ → α → σ → List ε}
  {ok : σ → α → Prop} {R : σ → τ → Prop} {s t : σ} {x y z : τ} {as : List α}

theorem events_cons {a : α} (moved : M.step s a = some t) :
    M.events shows s (a :: as) = shows s a t ++ M.events shows t as := by
  simp only [events, moved]

theorem exec_append {es fs : List ε} (first : N.exec x es = some y)
    (second : N.exec y fs = some z) : N.exec x (es ++ fs) = some z := by
  induction es generalizing x with
  | nil =>
      obtain rfl : x = y := Option.some.inj first
      exact second
  | cons e es ih =>
      obtain ⟨_, middle, moved, rest⟩ := execVia_cons_iff.mp first
      exact execVia_cons_iff.mpr ⟨trivial, middle, moved, ih rest⟩

variable [∀ s a, Decidable (ok s a)]

/-- All steps of a run satisfy a condition that follows from an invariant. -/
theorem exec_via {I : σ → Prop} (run : M.exec s as = some t) (start : I s)
    (allowed : ∀ s, ∀ a ∈ as, I s → ok s a)
    (preserved : ∀ s t, ∀ a ∈ as, I s → M.step s a = some t → I t) :
    M.execVia ok s as = some t := by
  induction as generalizing s with
  | nil => exact run
  | cons a as ih =>
      obtain ⟨_, middle, moved, rest⟩ := execVia_cons_iff.mp run
      refine execVia_cons_iff.mpr ⟨allowed s a (by simp) start, middle, moved, ih rest ?_ ?_ ?_⟩
      · exact preserved s middle a (by simp) start moved
      · exact fun s b member => allowed s b (List.mem_cons_of_mem a member)
      · exact fun s t b member => preserved s t b (List.mem_cons_of_mem a member)

/-- The rule of refinement. A step may use that its state before the step is reached. -/
theorem execVia_refines
    (refines : ∀ s x a t, M.ReachVia ok s → R s x → ok s a → M.step s a = some t →
      ∃ y, N.exec x (shows s a t) = some y ∧ R t y)
    (reached : M.ReachVia ok s) (related : R s x) (run : M.execVia ok s as = some t) :
    ∃ y, N.exec x (M.events shows s as) = some y ∧ R t y := by
  induction as generalizing s x with
  | nil =>
      obtain rfl : s = t := Option.some.inj run
      exact ⟨x, rfl, related⟩
  | cons a as ih =>
      obtain ⟨allowed, middle, moved, rest⟩ := execVia_cons_iff.mp run
      obtain ⟨y, answered, related'⟩ := refines s x a middle reached related allowed moved
      obtain ⟨z, later, final⟩ := ih (.step reached allowed moved) related' rest
      exact ⟨z, events_cons moved ▸ exec_append answered later, final⟩

end

end Machine
