import EBBLib.Library.BitField
import Mathlib.Logic.Function.Basic
import Mathlib.Tactic.Ring

/-!
# Page tables of four levels

A walk follows an address from table to table. Each level takes nine bits of the address as the
index of an entry, which is absent, names the next table, or names a page. Pages are found in
the tables of the last three levels, so that they have three sizes.
-/

namespace Paging

/-- The physical memory, as its words of eight bytes by their addresses. -/
abbrev Mem := Nat → BitVec 64

/-- The bit `present` of an entry. -/
def Present (e : BitVec 64) : Prop := BitField.get 0 1 e = 1#1

/-- The bit `ps` of an entry. -/
def Large (e : BitVec 64) : Prop := BitField.get 7 1 e = 1#1

instance (e : BitVec 64) : Decidable (Present e) := inferInstanceAs (Decidable (_ = _))

instance (e : BitVec 64) : Decidable (Large e) := inferInstanceAs (Decidable (_ = _))

/-- The address in an entry, whose low bits are those below the field. -/
def frame (start : Nat) (e : BitVec 64) : Nat :=
  (BitField.get start (52 - start) e).toNat * 2 ^ start

/-- The entry of an address in the table at `t`, on the level whose entries stand for `2 ^ shift`
bytes each. -/
def slot (t shift v : Nat) : Nat := t + 8 * (v / 2 ^ shift % 512)

/-- The upper bits of an address are all equal. -/
def Canonical (v : Nat) : Prop := v < 2 ^ 47 ∨ 2 ^ 64 - 2 ^ 47 ≤ v ∧ v < 2 ^ 64

instance (v : Nat) : Decidable (Canonical v) := inferInstanceAs (Decidable (_ ∨ _))

/-- An entry names a page. -/
def Leaf (shift : Nat) (e : BitVec 64) : Prop := shift = 12 ∨ shift ≤ 30 ∧ Large e

instance (shift : Nat) (e : BitVec 64) : Decidable (Leaf shift e) :=
  inferInstanceAs (Decidable (_ ∨ _))

/-- The walk through the levels that are left. -/
def walkFrom (mem : Mem) (v : Nat) : List Nat → Nat → Option Nat
  | [], _ => none
  | shift :: levels, t =>
      let e := mem (slot t shift v)
      if Present e then
        if Leaf shift e then some (frame shift e + v % 2 ^ shift)
        else walkFrom mem v levels (frame 12 e)
      else none

/-- What an address is translated to. -/
def walk (mem : Mem) (root v : Nat) : Option Nat :=
  if Canonical v then walkFrom mem v [39, 30, 21, 12] root else none

/-- Changes of the first `k` entries of a table, one after the other. -/
def each (f : Nat → BitVec 64 → BitVec 64) (t : Nat) : Nat → Mem → Mem
  | 0, mem => mem
  | k + 1, mem =>
      let mem := each f t k mem
      Function.update mem (t + 8 * k) (f k (mem (t + 8 * k)))

section

variable {mem : Mem} {v shift t k i p : Nat} {levels : List Nat}
  {f : Nat → BitVec 64 → BitVec 64}

theorem walkFrom_absent (absent : ¬ Present (mem (slot t shift v))) :
    walkFrom mem v (shift :: levels) t = none :=
  if_neg absent

theorem walkFrom_page (present : Present (mem (slot t shift v)))
    (leaf : Leaf shift (mem (slot t shift v))) :
    walkFrom mem v (shift :: levels) t =
      some (frame shift (mem (slot t shift v)) + v % 2 ^ shift) :=
  (if_pos present).trans (if_pos leaf)

theorem walkFrom_table (present : Present (mem (slot t shift v)))
    (table : ¬ Leaf shift (mem (slot t shift v))) :
    walkFrom mem v (shift :: levels) t =
      walkFrom mem v levels (frame 12 (mem (slot t shift v))) :=
  (if_pos present).trans (if_neg table)

theorem not_present_zero : ¬ Present 0 := by decide

/-- What is not one of the entries stays. -/
theorem each_outside (outside : ∀ i < k, p ≠ t + 8 * i) : each f t k mem p = mem p := by
  induction k with
  | zero => rfl
  | succ k ih =>
      have others : ∀ i < k, p ≠ t + 8 * i := fun i small => outside i (Nat.lt_succ_of_lt small)
      rw [each, Function.update_of_ne (outside k (Nat.lt_succ_self k)), ih others]

/-- Each entry is changed once. -/
theorem each_inside (inside : i < k) : each f t k mem (t + 8 * i) = f i (mem (t + 8 * i)) := by
  induction k with
  | zero => cases inside
  | succ k ih =>
      obtain before | rfl := Nat.lt_succ_iff_lt_or_eq.mp inside
      · rw [each, Function.update_of_ne (by omega), ih before]
      · rw [each, Function.update_self, each_outside (by omega)]

variable {ι : Type*} {g : ι → Mem → Mem} {is : List ι} {a : ι} {h : BitVec 64 → BitVec 64}

/-- A word that none of the changes touches. -/
theorem foldl_outside (outside : ∀ i ∈ is, ∀ mem, g i mem p = mem p) :
    is.foldl (fun mem i => g i mem) mem p = mem p := by
  induction is generalizing mem with
  | nil => rfl
  | cons i is ih =>
      rw [List.forall_mem_cons] at outside
      rw [List.foldl_cons, ih outside.2, outside.1]

/-- A word that one of the changes touches. -/
theorem foldl_inside (nodup : is.Nodup) (member : a ∈ is) (here : ∀ mem, g a mem p = h (mem p))
    (others : ∀ i ∈ is, i ≠ a → ∀ mem, g i mem p = mem p) :
    is.foldl (fun mem i => g i mem) mem p = h (mem p) := by
  induction is generalizing mem with
  | nil => cases member
  | cons i is ih =>
      obtain ⟨new, nodup⟩ := List.nodup_cons.mp nodup
      rw [List.forall_mem_cons] at others
      rw [List.foldl_cons]
      obtain rfl | member := List.mem_cons.mp member
      · rw [foldl_outside fun k later => others.2 k later fun same => new (same ▸ later), here]
      · rw [ih nodup member others.2, others.1 fun same => new (same ▸ member)]

end

end Paging
