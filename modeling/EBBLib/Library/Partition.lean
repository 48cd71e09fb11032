import Mathlib.Data.List.Nodup
import Mathlib.Logic.Function.Basic

/-!
# Objects in places

Every object is in one of a family of places, and there once. Objects move from the
front of one place to the front of another, as on a stack.
-/

universe u v

namespace Partition

variable {π : Type u} {α : Type v}

/-- The places have the objects `all` between them. -/
structure Covers (content : π → List α) (all : List α) : Prop where
  nodup : ∀ p, (content p).Nodup
  apart : ∀ p p' a, a ∈ content p → a ∈ content p' → p = p'
  mem_iff : ∀ a, a ∈ all ↔ ∃ p, a ∈ content p

/-- One place gets another content. -/
def put [DecidableEq π] (content : π → List α) (p : π) (xs : List α) : π → List α :=
  Function.update content p xs

/-- The first object of a place moves to the front of another one. -/
def move [DecidableEq π] (content : π → List α) (p p' : π) (a : α) (xs : List α) : π → List α :=
  put (put content p xs) p' (a :: content p')

/-- What a step does to the places. -/
inductive Move (π : Type u) (α : Type v) where
  | stay
  /-- A new object at the front of a place. -/
  | add (p : π) (a : α)
  /-- From the front of one place to the front of another. -/
  | shift (p p' : π)

/-- The places after a step. -/
def Move.apply [DecidableEq π] (content : π → List α) : Move π α → π → List α
  | .stay => content
  | .add p a => put content p (a :: content p)
  | .shift p p' =>
      match content p with
      | [] => content
      | a :: xs => move content p p' a xs

section

variable {content : π → List α} {all xs : List α} {p p' r : π} {a : α}

theorem Covers.existsUnique (covers : Covers content all) (present : a ∈ all) :
    ∃! p, a ∈ content p := by
  obtain ⟨p, here⟩ := (covers.mem_iff a).mp present
  exact ⟨p, here, fun p' there => covers.apart p' p a there here⟩

/-- The first object of a place is not further down. -/
theorem Covers.not_mem (covers : Covers content all) (front : content p = a :: xs) : a ∉ xs := by
  have nodup := covers.nodup p
  rw [front] at nodup
  exact (List.nodup_cons.mp nodup).1

theorem Covers.not_mem_of_ne (covers : Covers content all) (here : a ∈ content p) (other : p ≠ p') :
    a ∉ content p' :=
  fun there => other (covers.apart p p' a here there)

theorem covers_nil : Covers (fun _ : π => ([] : List α)) [] :=
  ⟨fun _ => List.nodup_nil, fun _ _ _ none => absurd none List.not_mem_nil, by simp⟩

variable [DecidableEq π]

@[simp] theorem put_self : put content p xs p = xs := Function.update_self ..

theorem put_of_ne (other : r ≠ p) : put content p xs r = content r := Function.update_of_ne other ..

@[simp] theorem move_target : move content p p' a xs p' = a :: content p' := put_self

theorem apply_shift (front : content p = a :: xs) :
    (Move.shift p p').apply content = move content p p' a xs := by
  rw [Move.apply, front]

theorem move_source (other : p ≠ p') : move content p p' a xs p = xs := by
  rw [move, put_of_ne other, put_self]

theorem move_of_ne (source : r ≠ p) (target : r ≠ p') : move content p p' a xs r = content r := by
  rw [move, put_of_ne target, put_of_ne source]

theorem shift_of_ne (source : r ≠ p) (target : r ≠ p') :
    (Move.shift p p').apply content r = content r := by
  cases front : content p with
  | nil => rw [Move.apply, front]
  | cons a xs =>
      rw [apply_shift front]
      exact move_of_ne source target

/-- The object is at its new place, and the others are where they were. -/
theorem Covers.mem_move {b : α} (covers : Covers content all) (front : content p = a :: xs)
    (other : p ≠ p') : b ∈ move content p p' a xs r ↔ b = a ∧ r = p' ∨ b ≠ a ∧ b ∈ content r := by
  have here : a ∈ content p := front ▸ List.mem_cons_self
  by_cases target : r = p'
  · subst target
    have absent := covers.not_mem_of_ne here other
    rw [move_target, List.mem_cons]
    constructor
    · rintro (same | there)
      · exact .inl ⟨same, rfl⟩
      · exact .inr ⟨ne_of_mem_of_not_mem there absent, there⟩
    · rintro (⟨same, _⟩ | ⟨_, there⟩)
      · exact .inl same
      · exact .inr there
  · by_cases source : r = p
    · subst source
      have absent := covers.not_mem front
      rw [move_source other, front, List.mem_cons]
      constructor
      · exact fun there => .inr ⟨ne_of_mem_of_not_mem there absent, .inr there⟩
      · rintro (⟨_, same⟩ | ⟨differs, same | there⟩)
        · exact absurd same other
        · exact absurd same differs
        · exact there
    · have absent := covers.not_mem_of_ne here (Ne.symm source)
      rw [move_of_ne source target]
      constructor
      · exact fun there => .inr ⟨ne_of_mem_of_not_mem there absent, there⟩
      · rintro (⟨_, same⟩ | ⟨_, there⟩)
        · exact absurd same target
        · exact there

theorem Covers.move (covers : Covers content all) (front : content p = a :: xs) (other : p ≠ p') :
    Covers (move content p p' a xs) all := by
  have here : a ∈ content p := front ▸ List.mem_cons_self
  have contents : ∀ b r, b ∈ Partition.move content p p' a xs r ↔
      b = a ∧ r = p' ∨ b ≠ a ∧ b ∈ content r := fun b r => covers.mem_move front other
  constructor
  · intro r
    by_cases target : r = p'
    · subst target
      rw [move_target]
      exact List.nodup_cons.mpr ⟨covers.not_mem_of_ne here other, covers.nodup r⟩
    · by_cases source : r = p
      · subst source
        have nodup := covers.nodup r
        rw [front] at nodup
        rw [move_source other]
        exact (List.nodup_cons.mp nodup).2
      · rw [move_of_ne source target]
        exact covers.nodup r
  · intro r r' b first second
    obtain ⟨same, at_⟩ | ⟨differs, first⟩ := (contents b r).mp first
    · obtain ⟨_, at'⟩ | ⟨differs, _⟩ := (contents b r').mp second
      · exact at_.trans at'.symm
      · exact absurd same differs
    · obtain ⟨same, _⟩ | ⟨_, second⟩ := (contents b r').mp second
      · exact absurd same differs
      · exact covers.apart r r' b first second
  · intro b
    rw [covers.mem_iff b]
    constructor
    · rintro ⟨r, there⟩
      by_cases same : b = a
      · exact ⟨p', (contents b p').mpr (.inl ⟨same, rfl⟩)⟩
      · exact ⟨r, (contents b r).mpr (.inr ⟨same, there⟩)⟩
    · rintro ⟨r, there⟩
      obtain ⟨rfl, _⟩ | ⟨_, there⟩ := (contents b r).mp there
      · exact ⟨p, here⟩
      · exact ⟨r, there⟩

/-- A new object is at the front of a place. -/
theorem mem_add {b : α} : b ∈ put content p (a :: content p) r ↔ b = a ∧ r = p ∨ b ∈ content r := by
  by_cases here : r = p
  · subst here
    simp
  · simp [put_of_ne here, here]

theorem Covers.add (covers : Covers content all) (fresh : a ∉ all) :
    Covers (put content p (a :: content p)) (a :: all) := by
  have nowhere : ∀ r, a ∉ content r := fun r there => fresh ((covers.mem_iff a).mpr ⟨r, there⟩)
  constructor
  · intro r
    by_cases here : r = p
    · subst here
      rw [put_self]
      exact List.nodup_cons.mpr ⟨nowhere r, covers.nodup r⟩
    · rw [put_of_ne here]
      exact covers.nodup r
  · intro r r' b first second
    obtain ⟨same, at_⟩ | first := mem_add.mp first
    · obtain ⟨_, at'⟩ | second := mem_add.mp second
      · exact at_.trans at'.symm
      · exact absurd (same ▸ second) (nowhere r')
    · obtain ⟨same, _⟩ | second := mem_add.mp second
      · exact absurd (same ▸ first) (nowhere r)
      · exact covers.apart r r' b first second
  · intro b
    rw [List.mem_cons, covers.mem_iff b]
    simp only [mem_add, exists_or]
    constructor
    · rintro (same | there)
      · exact .inl ⟨p, same, rfl⟩
      · exact .inr there
    · rintro (⟨_, same, _⟩ | there)
      · exact .inl same
      · exact .inr there

end

end Partition
