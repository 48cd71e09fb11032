import Mathlib.Data.List.Chain

/-!
# Address-ordered blocks with first fit and coalescing

A region is a list of blocks in address order, each of some size and either used
or free. An allocation carves the first free block that is large enough, and a
release frees one block and merges it with its free neighbours. Sizes are in
arbitrary units, and addresses are offsets from the start of the list.

`At` names the block that starts at an offset. It is the view in which an
operation on one block leaves the others alone, while the list itself changes
length. `Coalesced` is the invariant of both operations: of two adjacent blocks
at least one is used.
-/

namespace FirstFit

/-- A block of the region. -/
structure Block where
  size : Nat
  used : Bool
deriving DecidableEq, Repr

/-- The extent of a list of blocks. -/
def total : List Block → Nat
  | [] => 0
  | b :: bs => b.size + total bs

@[simp] theorem total_nil : total [] = 0 := rfl

@[simp] theorem total_cons (b : Block) (bs : List Block) :
    total (b :: bs) = b.size + total bs := rfl

@[simp] theorem total_append (xs ys : List Block) :
    total (xs ++ ys) = total xs + total ys := by
  induction xs with
  | nil => simp
  | cons b xs ih => simp only [List.cons_append, total_cons, ih, Nat.add_assoc]

/-- Block `b` starts at offset `o` in the blocks laid out from `start`. -/
def At (start : Nat) : List Block → Nat → Block → Prop
  | [], _, _ => False
  | c :: bs, o, b => (o = start ∧ b = c) ∨ At (start + c.size) bs o b

@[simp] theorem at_nil {start o : Nat} {b : Block} : ¬ At start [] o b := id

@[simp] theorem at_cons {start o : Nat} {b c : Block} {bs : List Block} :
    At start (c :: bs) o b ↔ (o = start ∧ b = c) ∨ At (start + c.size) bs o b := Iff.rfl

@[simp] theorem at_append {start o : Nat} {b : Block} {xs ys : List Block} :
    At start (xs ++ ys) o b ↔ At start xs o b ∨ At (start + total xs) ys o b := by
  induction xs generalizing start with
  | nil => simp
  | cons c xs ih =>
      simp only [List.cons_append, at_cons, ih, total_cons, Nat.add_assoc, or_assoc]

/-- A block lies inside the extent of the list that it belongs to. -/
theorem At.bounds {start o : Nat} {b : Block} {bs : List Block} (h : At start bs o b) :
    start ≤ o ∧ o + b.size ≤ start + total bs := by
  induction bs generalizing start with
  | nil => exact absurd h at_nil
  | cons c bs ih =>
      rcases h with ⟨rfl, rfl⟩ | rest
      · simp only [total_cons]
        omega
      · have := ih rest
        simp only [total_cons]
        omega

/-- Cut the list at one of its blocks. -/
theorem At.split {start o : Nat} {b : Block} {bs : List Block} (h : At start bs o b) :
    ∃ pre post, bs = pre ++ b :: post ∧ o = start + total pre := by
  induction bs generalizing start with
  | nil => exact absurd h at_nil
  | cons c bs ih =>
      rcases h with ⟨rfl, rfl⟩ | rest
      · exact ⟨[], bs, rfl, rfl⟩
      · obtain ⟨pre, post, rfl, rfl⟩ := ih rest
        exact ⟨c :: pre, post, rfl, by simp [Nat.add_assoc]⟩

theorem At.mem {start o : Nat} {b : Block} {bs : List Block} (h : At start bs o b) : b ∈ bs := by
  obtain ⟨pre, post, rfl, _⟩ := h.split
  simp

/-- Two blocks of one list are the same block or do not overlap. -/
theorem At.disjoint {start o p : Nat} {b c : Block} {bs : List Block}
    (hb : At start bs o b) (hc : At start bs p c) :
    (o = p ∧ b = c) ∨ o + b.size ≤ p ∨ p + c.size ≤ o := by
  induction bs generalizing start with
  | nil => exact absurd hb at_nil
  | cons d bs ih =>
      rcases hb with ⟨rfl, rfl⟩ | hb <;> rcases hc with ⟨rfl, rfl⟩ | hc
      · exact .inl ⟨rfl, rfl⟩
      · exact .inr (.inl hc.bounds.1)
      · exact .inr (.inr hb.bounds.1)
      · exact ih hb hc

/-- No two adjacent blocks are both free. -/
def Coalesced (bs : List Block) : Prop :=
  bs.IsChain fun a b => a.used = true ∨ b.used = true

/-- Adjacency across a seam, with the last block on the left of it. -/
theorem coalesced_append {xs ys : List Block} :
    Coalesced (xs ++ ys) ↔ Coalesced xs ∧ Coalesced ys ∧
      ∀ a ∈ xs.getLast?, ∀ b ∈ ys.head?, a.used = true ∨ b.used = true :=
  List.isChain_append

/-- Passed over by a search for `n` units. -/
def Skipped (n : Nat) (b : Block) : Prop := b.used = true ∨ b.size < n

instance (n : Nat) (b : Block) : Decidable (Skipped n b) :=
  inferInstanceAs (Decidable (_ ∨ _))

/-- `b`, between `pre` and `post`, is the first free block of at least `n` units. -/
structure Fits (n : Nat) (pre : List Block) (b : Block) : Prop where
  skipped : ∀ c ∈ pre, Skipped n c
  free : b.used = false
  large : n ≤ b.size

theorem Fits.cons_used {n : Nat} {pre : List Block} {b c : Block} (fits : Fits n pre b)
    (used : c.used = true) : Fits n (c :: pre) b := by
  refine ⟨?_, fits.free, fits.large⟩
  intro d hd
  apply Or.elim (List.mem_cons.mp hd)
  · rintro rfl
    exact .inl used
  · exact fits.skipped d

/-- No block that would do starts in front of a first fit. -/
theorem Fits.lowest {n start o : Nat} {pre post : List Block} {b c : Block} (fits : Fits n pre b)
    (block : At start (pre ++ b :: post) o c) (free : c.used = false) (large : n ≤ c.size) :
    start + total pre ≤ o := by
  rw [at_append] at block
  apply Or.elim block
  · intro before
    obtain used | small := fits.skipped c before.mem
    · rw [free] at used
      cases used
    · omega
  · exact fun from_here => from_here.bounds.1

/-- A search either passes over the whole list or stops at a first fit. -/
theorem skipped_or_fits (n : Nat) (bs : List Block) :
    (∀ b ∈ bs, Skipped n b) ∨ ∃ pre b post, bs = pre ++ b :: post ∧ Fits n pre b := by
  induction bs with
  | nil => exact .inl (by simp)
  | cons c bs ih =>
      by_cases hc : Skipped n c
      · rcases ih with all | ⟨pre, b, post, rfl, fits⟩
        · exact .inl (by simpa using ⟨hc, all⟩)
        · refine .inr ⟨c :: pre, b, post, rfl, ?_, fits.free, fits.large⟩
          simpa using ⟨hc, fits.skipped⟩
      · simp only [Skipped, not_or, Nat.not_lt, Bool.not_eq_true] at hc
        exact .inr ⟨[], c, bs, rfl, by simp, hc.1, hc.2⟩

/-- Carve `n` units off the start of a block, leaving the rest of it free. -/
def carve (n : Nat) (b : Block) : List Block :=
  if b.size = n then [⟨n, true⟩] else [⟨n, true⟩, ⟨b.size - n, false⟩]

/-- The region after an allocation of `n` units from `b`. -/
def allocate (n : Nat) (pre : List Block) (b : Block) (post : List Block) : List Block :=
  pre ++ carve n b ++ post

theorem total_carve {n : Nat} {b : Block} (large : n ≤ b.size) :
    total (carve n b) = b.size := by
  unfold carve
  split <;> simp <;> omega

/-- The allocated block starts where the free block did. -/
theorem at_allocate_self {n start : Nat} {pre post : List Block} {b : Block} :
    At start (allocate n pre b post) (start + total pre) ⟨n, true⟩ := by
  unfold allocate carve
  split <;> simp

/-- An allocation from a free block keeps every used block in place. -/
theorem at_allocate {n start o : Nat} {pre post : List Block} {b c : Block}
    (fits : Fits n pre b) (used : c.used = true) (h : At start (pre ++ b :: post) o c) :
    At start (allocate n pre b post) o c := by
  simp only [at_append, at_cons] at h
  simp only [allocate, at_append, total_append, total_carve fits.large]
  rcases h with h | ⟨rfl, rfl⟩ | h
  · exact .inl (.inl h)
  · exact absurd fits.free (by simp [used])
  · exact .inr (by simpa only [Nat.add_assoc] using h)

theorem coalesced_allocate {n : Nat} {pre post : List Block} {b : Block}
    (fits : Fits n pre b) (h : Coalesced (pre ++ b :: post)) :
    Coalesced (allocate n pre b post) := by
  obtain ⟨hpre, hpost, seam⟩ := coalesced_append.mp h
  -- The remainder takes the place of `b` in front of `post`.
  have rest : ∀ m, Coalesced (⟨m, false⟩ :: post) := by
    intro m
    cases post with
    | nil => exact .singleton _
    | cons c post =>
        obtain ⟨used, tail⟩ := List.isChain_cons_cons.mp hpost
        refine List.isChain_cons_cons.mpr ⟨?_, tail⟩
        simpa [fits.free] using used
  have carved : Coalesced (carve n b ++ post) := by
    unfold carve
    split
    · exact (List.isChain_cons.mpr ⟨fun _ _ => .inl rfl, (rest 0).tail⟩)
    · exact List.isChain_cons_cons.mpr ⟨.inl rfl, rest _⟩
  rw [allocate, List.append_assoc, coalesced_append]
  refine ⟨hpre, carved, fun a _ c hc => .inr ?_⟩
  unfold carve at hc
  split at hc <;> simp at hc <;> simp [← hc]

/-- The blocks before a released one, without the free block that it absorbs,
and the size of that block. -/
def absorbLeft (pre : List Block) : List Block × Nat :=
  match pre.getLast? with
  | some a => if a.used then (pre, 0) else (pre.dropLast, a.size)
  | none => (pre, 0)

/-- The blocks after a released one, without the free block that it absorbs,
and the size of that block. -/
def absorbRight : List Block → List Block × Nat
  | [] => ([], 0)
  | c :: post => if c.used then (c :: post, 0) else (post, c.size)

/-- The region after the release of `b`. -/
def release (pre : List Block) (b : Block) (post : List Block) : List Block :=
  (absorbLeft pre).1 ++
    ⟨(absorbLeft pre).2 + b.size + (absorbRight post).2, false⟩ :: (absorbRight post).1

@[simp] theorem absorbLeft_concat (pre : List Block) (a : Block) :
    absorbLeft (pre ++ [a]) = if a.used then (pre ++ [a], 0) else (pre, a.size) := by
  simp [absorbLeft]

@[simp] theorem absorbRight_nil : absorbRight [] = ([], 0) := rfl

@[simp] theorem absorbRight_cons (c : Block) (post : List Block) :
    absorbRight (c :: post) = if c.used then (c :: post, 0) else (post, c.size) := rfl

theorem total_absorbLeft (pre : List Block) :
    total (absorbLeft pre).1 + (absorbLeft pre).2 = total pre := by
  rcases pre.eq_nil_or_concat with rfl | ⟨pre, a, rfl⟩
  · rfl
  · rw [List.concat_eq_append, absorbLeft_concat]
    split <;> simp

theorem total_absorbRight (post : List Block) :
    (absorbRight post).2 + total (absorbRight post).1 = total post := by
  cases post with
  | nil => rfl
  | cons c post =>
      rw [absorbRight_cons]
      split <;> simp

theorem at_absorbLeft {start o : Nat} {c : Block} {pre : List Block} (used : c.used = true)
    (h : At start pre o c) : At start (absorbLeft pre).1 o c := by
  rcases pre.eq_nil_or_concat with rfl | ⟨pre, a, rfl⟩
  · exact absurd h at_nil
  · rw [List.concat_eq_append] at h ⊢
    rw [absorbLeft_concat]
    split
    · exact h
    · simp only [at_append, at_cons, at_nil, or_false] at h
      rcases h with h | ⟨_, rfl⟩
      · exact h
      · contradiction

theorem at_absorbRight {start o : Nat} {c : Block} {post : List Block} (used : c.used = true)
    (h : At start post o c) :
    At (start + (absorbRight post).2) (absorbRight post).1 o c := by
  cases post with
  | nil => exact absurd h at_nil
  | cons d post =>
      rw [absorbRight_cons]
      split
      · exact h
      · rcases h with ⟨_, rfl⟩ | h
        · contradiction
        · exact h

/-- A release keeps every other used block in place. -/
theorem at_release {start o : Nat} {pre post : List Block} {b c : Block}
    (used : c.used = true) (other : o ≠ start + total pre)
    (h : At start (pre ++ b :: post) o c) : At start (release pre b post) o c := by
  simp only [at_append, at_cons] at h
  simp only [release, at_append, at_cons]
  rcases h with h | ⟨rfl, _⟩ | h
  · exact .inl (at_absorbLeft used h)
  · exact absurd rfl other
  · have left := total_absorbLeft pre
    have moved := at_absorbRight used h
    refine .inr (.inr ?_)
    rwa [show start + total (absorbLeft pre).1 +
        ((absorbLeft pre).2 + b.size + (absorbRight post).2) =
      start + total pre + b.size + (absorbRight post).2 by omega]

/-- The blocks left of a released one end in a used block. -/
theorem coalesced_absorbLeft {pre : List Block} (h : Coalesced pre) (m : Nat) :
    Coalesced ((absorbLeft pre).1 ++ [⟨m, false⟩]) := by
  rcases pre.eq_nil_or_concat with rfl | ⟨pre, a, rfl⟩
  · exact .singleton _
  · rw [List.concat_eq_append] at h ⊢
    rw [absorbLeft_concat]
    split
    · rename_i used
      exact coalesced_append.mpr ⟨h, .singleton _, by simp [used]⟩
    · rename_i free
      obtain ⟨hpre, _, seam⟩ := coalesced_append.mp h
      refine coalesced_append.mpr ⟨hpre, .singleton _, fun x hx y hy => .inl ?_⟩
      exact (seam x hx a rfl).resolve_right free

/-- The blocks right of a released one start with a used block. -/
theorem coalesced_absorbRight {post : List Block} (h : Coalesced post) (m : Nat) :
    Coalesced (⟨m, false⟩ :: (absorbRight post).1) := by
  cases post with
  | nil => exact .singleton _
  | cons c post =>
      rw [absorbRight_cons]
      split
      · rename_i used
        exact List.isChain_cons_cons.mpr ⟨.inr used, h⟩
      · rename_i free
        cases post with
        | nil => exact .singleton _
        | cons d post =>
            obtain ⟨used, tail⟩ := List.isChain_cons_cons.mp h
            exact List.isChain_cons_cons.mpr ⟨.inr (used.resolve_left free), tail⟩

theorem coalesced_release {pre post : List Block} {b : Block}
    (h : Coalesced (pre ++ b :: post)) : Coalesced (release pre b post) := by
  obtain ⟨hpre, hpost, _⟩ := coalesced_append.mp h
  exact List.isChain_split.mpr
    ⟨coalesced_absorbLeft hpre _, coalesced_absorbRight hpost.tail _⟩

end FirstFit
