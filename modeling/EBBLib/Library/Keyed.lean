import Mathlib.Data.List.Basic
import Mathlib.Logic.Basic

/-!
# Tables with keys

A table is a list of entries that never grows. An entry whose key is `used` stands for this
key, the others are free. In a table whose used keys are distinct, replacing one entry changes
what is found for two keys at most, the old one of the entry and the new one.
-/

namespace Keyed

variable {α κ : Type*} (key : α → κ) (used : κ → Prop)

/-- The first entry with a key. -/
def lookup [DecidableEq κ] (k : κ) (l : List α) : Option α := l.find? fun e => key e = k

/-- No two positions have the same used key. -/
def Distinct (l : List α) : Prop :=
  ∀ (i j : Nat) (d e : α), l[i]? = some d → l[j]? = some e → used (key d) → key d = key e → i = j

section

variable {key used} {l : List α} {d e : α} {k : κ} {i j : Nat}

theorem distinct_replicate (free : ¬ used (key e)) (n : Nat) :
    Distinct key used (List.replicate n e) := by
  intro i j a b atI _ isUsed _
  rw [List.eq_of_mem_replicate (List.mem_of_getElem? atI)] at isUsed
  exact absurd isUsed free

variable [DecidableEq κ]

theorem lookup_key (found : lookup key k l = some e) : key e = k := by
  rw [lookup] at found
  simpa using List.find?_some found

theorem lookup_at (found : lookup key k l = some e) : ∃ i : Nat, l[i]? = some e :=
  List.mem_iff_getElem?.mp (List.mem_of_find?_eq_some found)

theorem lookup_eq_none_iff : lookup key k l = none ↔ ∀ e ∈ l, key e ≠ k := by
  simp [lookup]

theorem ne_of_lookup (missing : lookup key k l = none) (here : l[i]? = some e) : key e ≠ k :=
  lookup_eq_none_iff.mp missing e (List.mem_of_getElem? here)

theorem Distinct.lookup_eq (distinct : Distinct key used l) (isUsed : used k)
    (here : l[i]? = some e) (same : key e = k) : lookup key k l = some e := by
  subst same
  obtain none | ⟨d, found⟩ := Option.eq_none_or_eq_some (lookup key (key e) l)
  · exact absurd rfl (ne_of_lookup none here)
  · obtain ⟨j, there⟩ := lookup_at found
    obtain rfl := distinct i j e d here there isUsed (lookup_key found).symm
    rw [found, ← here, there]

/-- An entry stands alone for its key. -/
theorem Distinct.lookup_iff (distinct : Distinct key used l) (isUsed : used k) :
    lookup key k l = some e ↔ key e = k ∧ ∃ i : Nat, l[i]? = some e := by
  constructor
  · intro found
    exact ⟨lookup_key found, lookup_at found⟩
  · rintro ⟨same, i, here⟩
    exact distinct.lookup_eq isUsed here same

/-- Another key may take the place of one, if the table does not have it yet. -/
theorem Distinct.set (distinct : Distinct key used l) (here : l[i]? = some d)
    (fresh : used (key e) → key e = key d ∨ lookup key (key e) l = none) :
    Distinct key used (l.set i e) := by
  have bound : i < l.length := (List.getElem?_eq_some_iff.mp here).1
  -- The new entry shares its key with no other one.
  have alone : ∀ j b, i ≠ j → l[j]? = some b → used (key e) → key e ≠ key b := by
    intro j b apart there isUsed same
    obtain old | missing := fresh isUsed
    · exact apart (distinct i j d b here there (old ▸ isUsed) (old.symm.trans same))
    · exact ne_of_lookup missing there same.symm
  intro p r a b atP atR isUsed same
  rw [List.getElem?_set] at atP atR
  by_cases first : i = p <;> by_cases second : i = r
  · rw [← first, second]
  · rw [if_pos first, if_pos bound, Option.some.injEq] at atP
    rw [if_neg second] at atR
    subst atP
    exact absurd same (alone r b second atR isUsed)
  · rw [if_neg first] at atP
    rw [if_pos second, if_pos bound, Option.some.injEq] at atR
    subst atR
    exact absurd same.symm (alone p a first atP (same ▸ isUsed))
  · rw [if_neg first] at atP
    rw [if_neg second] at atR
    exact distinct p r a b atP atR isUsed same

/-- What is found after an entry was replaced. -/
theorem Distinct.lookup_set (distinct : Distinct key used l) (here : l[i]? = some d)
    (fresh : used (key e) → key e = key d ∨ lookup key (key e) l = none) (isUsed : used k) :
    lookup key k (l.set i e) =
      if key e = k then some e else if key d = k then none else lookup key k l := by
  have distinct' := distinct.set here fresh
  have bound : i < l.length := (List.getElem?_eq_some_iff.mp here).1
  split_ifs with new old
  · exact distinct'.lookup_eq isUsed (List.getElem?_set_self bound) new
  · rw [lookup_eq_none_iff]
    intro a member same
    obtain ⟨p, there⟩ := List.mem_iff_getElem?.mp member
    rw [List.getElem?_set] at there
    split_ifs at there with at_
    · exact new (Option.some.inj there ▸ same)
    · exact at_ (distinct i p d a here there (old ▸ isUsed) (old.trans same.symm))
  · refine Option.ext fun a => ?_
    rw [distinct'.lookup_iff isUsed, distinct.lookup_iff isUsed]
    refine and_congr_right fun same => exists_congr fun p => ?_
    rw [List.getElem?_set]
    split_ifs with at_
    · subst at_
      rw [here, Option.some.injEq, Option.some.injEq]
      exact ⟨fun clash => absurd (clash ▸ same) new, fun clash => absurd (clash ▸ same) old⟩
    · rfl

theorem lookup_replicate (other : key e ≠ k) (n : Nat) :
    lookup key k (List.replicate n e) = none := by
  rw [lookup_eq_none_iff]
  intro a member
  rwa [List.eq_of_mem_replicate member]

end

end Keyed
