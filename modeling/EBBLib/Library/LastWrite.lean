import EBBLib.Library.Transition

/-!
# Cells that hold what was written last

A part of the state that every action either writes or leaves alone holds, after a run, what
the last action that wrote it has written.
-/

universe u v w

variable {σ : Type u} {α : Type v} {β : Type w}

/-- What the last of a list of actions that write a cell has written there. -/
def lastWrite (write : α → Option β) : List α → Option β
  | [] => none
  | a :: as => (lastWrite write as).or (write a)

theorem lastWrite_none (as : List α) : lastWrite (fun _ => (none : Option β)) as = none := by
  induction as with
  | nil => rfl
  | cons a as ih => rw [lastWrite, ih, Option.none_or]

namespace Machine

variable {M : Machine σ α} {s t : σ} {as : List α}

/-- The rule for a cell. -/
theorem exec_lastWrite (cell : σ → β) (write : α → Option β) (run : M.exec s as = some t)
    (step : ∀ a ∈ as, ∀ s t, M.step s a = some t → cell t = (write a).getD (cell s)) :
    cell t = (lastWrite write as).getD (cell s) := by
  induction as generalizing s with
  | nil =>
      obtain rfl : s = t := Option.some.inj run
      rfl
  | cons a as ih =>
      obtain ⟨_, middle, moved, rest⟩ := execVia_cons_iff.mp run
      obtain ⟨first, later⟩ := List.forall_mem_cons.mp step
      rw [lastWrite, ih rest later, first s middle moved]
      cases lastWrite write as <;> rfl

/-- The frame rule: a cell that no action writes stays. -/
theorem exec_unwritten (cell : σ → β) (run : M.exec s as = some t)
    (step : ∀ a ∈ as, ∀ s t, M.step s a = some t → cell t = cell s) : cell t = cell s := by
  have last := exec_lastWrite cell (fun _ => none) run step
  rwa [lastWrite_none, Option.getD_none] at last

/-- Actions that are always enabled run to the end. -/
theorem exec_isSome (enabled : ∀ a ∈ as, ∀ s, (M.step s a).isSome) : (M.exec s as).isSome := by
  induction as generalizing s with
  | nil => rfl
  | cons a as ih =>
      obtain ⟨first, later⟩ := List.forall_mem_cons.mp enabled
      obtain ⟨middle, moved⟩ := Option.isSome_iff_exists.mp (first s)
      rw [exec_cons moved]
      exact ih later

end Machine
