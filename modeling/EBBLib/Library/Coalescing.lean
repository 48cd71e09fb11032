import EBBLib.Library.FirstFit

/-!
# Coalesced lists are determined by their used blocks

Free blocks fill the gaps between used ones, and in a coalesced list each gap is one
block. So two coalesced lists of the same extent with the same used blocks at the
same offsets are equal. A release removes one used block and keeps the others, which
is why the order of several releases does not matter.
-/

namespace FirstFit

/-- The used blocks of a list, with their offsets. -/
def UsedAt (start : Nat) (bs : List Block) (o : Nat) (b : Block) : Prop :=
  b.used = true ∧ At start bs o b

variable {start : Nat} {xs ys pre post bs : List Block}

/-- Every block has some extent. -/
def Positive (bs : List Block) : Prop := ∀ b ∈ bs, 0 < b.size

theorem At.head_eq {b c : Block} (positive : Positive (c :: bs))
    (h : At start (c :: bs) start b) : b = c := by
  apply Or.elim h
  · exact fun here => here.2
  · intro later
    have := later.bounds
    have := positive c (by simp)
    omega

/-- No block starts inside another one. -/
theorem At.not_inside {o : Nat} {b c : Block} (h : At start (c :: bs) o b) (after : start < o) :
    start + c.size ≤ o := by
  apply Or.elim h
  · intro here
    omega
  · exact fun later => later.bounds.1

theorem Positive.tail {c : Block} (h : Positive (c :: bs)) : Positive bs :=
  fun b hb => h b (by simp [hb])

theorem Coalesced.tail {c : Block} (h : Coalesced (c :: bs)) : Coalesced bs :=
  List.IsChain.tail h

/-- The gap in front of the first used block, or in front of the end, is one block. -/
theorem gap_le {c d : Block} (hx : Coalesced (c :: xs)) (positive : Positive (c :: xs))
    (free : c.used = false)
    (total : total (c :: xs) = total (d :: ys))
    (same : ∀ o b, UsedAt start (c :: xs) o b → UsedAt start (d :: ys) o b) :
    d.size ≤ c.size := by
  cases xs with
  | nil =>
      simp only [total_cons, total_nil] at total
      omega
  | cons e xs =>
      -- The block behind a free one is used, and so it is a block of the other list.
      have used : e.used = true := by
        have adjacent := (List.isChain_cons_cons.mp hx).1
        simpa [free] using adjacent
      have here := same (start + c.size) e ⟨used, by simp⟩
      have bound := here.2.not_inside (by have := positive c (by simp); omega)
      omega

theorem Coalesced.unique (hx : Coalesced xs) (hy : Coalesced ys) (px : Positive xs)
    (py : Positive ys) (total : total xs = total ys)
    (same : ∀ o b, UsedAt start xs o b ↔ UsedAt start ys o b) : xs = ys := by
  induction xs generalizing start ys with
  | nil =>
      cases ys with
      | nil => rfl
      | cons d ys =>
          have := py d (by simp)
          simp only [total_cons, total_nil] at total
          omega
  | cons c xs ih =>
      cases ys with
      | nil =>
          have := px c (by simp)
          simp only [total_cons, total_nil] at total
          omega
      | cons d ys =>
          -- The heads agree: a used head is a block of both lists, and free heads are gaps.
          have heads : c = d := by
            by_cases used : c.used = true
            · exact At.head_eq py ((same start c).mp ⟨used, by simp⟩).2
            · by_cases used' : d.used = true
              · exact (At.head_eq px ((same start d).mpr ⟨used', by simp⟩).2).symm
              · rw [Bool.not_eq_true] at used used'
                have size : c.size = d.size := by
                  apply Nat.le_antisymm
                  · exact gap_le hy py used' total.symm fun o b => (same o b).mpr
                  · exact gap_le hx px used total fun o b => (same o b).mp
                cases c
                cases d
                simp_all
          subst heads
          rw [total_cons, total_cons, Nat.add_left_cancel_iff] at total
          -- Blocks of the tails start behind the heads.
          have rest : ∀ o b, UsedAt (start + c.size) xs o b ↔ UsedAt (start + c.size) ys o b := by
            intro o b
            have positive := px c (by simp)
            have step := same o b
            simp only [UsedAt, at_cons] at step
            constructor
            · rintro ⟨used, h⟩
              refine ⟨used, (step.mp ⟨used, .inr h⟩).2.resolve_left ?_⟩
              have := h.bounds
              omega
            · rintro ⟨used, h⟩
              refine ⟨used, (step.mpr ⟨used, .inr h⟩).2.resolve_left ?_⟩
              have := h.bounds
              omega
          rw [ih hx.tail hy.tail px.tail py.tail total rest]

/-! ### Releases -/

theorem positive_append : Positive (xs ++ ys) ↔ Positive xs ∧ Positive ys := by
  simp only [Positive, List.mem_append]
  exact ⟨fun h => ⟨fun b hb => h b (.inl hb), fun b hb => h b (.inr hb)⟩,
    fun h b hb => hb.elim (h.1 b) (h.2 b)⟩

theorem prefix_absorbLeft (pre : List Block) : (absorbLeft pre).1 <+: pre := by
  rcases pre.eq_nil_or_concat with rfl | ⟨pre, a, rfl⟩
  · exact List.prefix_rfl
  · rw [List.concat_eq_append, absorbLeft_concat]
    split
    · exact List.prefix_rfl
    · exact List.prefix_append _ _

theorem suffix_absorbRight (post : List Block) : (absorbRight post).1 <:+ post := by
  cases post with
  | nil => exact List.suffix_rfl
  | cons c post =>
      rw [absorbRight_cons]
      split
      · exact List.suffix_rfl
      · exact List.suffix_cons _ _

/-- A used block of the region after a release was there before, elsewhere. -/
theorem at_of_at_release {o : Nat} {b c : Block} (positive : Positive (pre ++ b :: post))
    (used : c.used = true) (h : At start (release pre b post) o c) :
    o ≠ start + total pre ∧ At start (pre ++ b :: post) o c := by
  have left := total_absorbLeft pre
  have right := total_absorbRight post
  obtain ⟨_, positiveRight⟩ := positive_append.mp positive
  have size := positiveRight b (by simp)
  simp only [release, at_append, at_cons] at h
  simp only [at_append, at_cons]
  obtain before | ⟨_, rfl⟩ | after := h
  · have inside := before.bounds
    have positive' :=
        positive c (List.mem_append_left _ ((prefix_absorbLeft pre).subset before.mem))
    obtain ⟨rest, eq⟩ := prefix_absorbLeft pre
    have whole : At start pre o c := by
      rw [← eq, at_append]
      exact .inl before
    exact ⟨by omega, .inl whole⟩
  · cases used
  · have inside := after.bounds
    obtain ⟨gap, eq⟩ := suffix_absorbRight post
    have gapSize : total gap = (absorbRight post).2 := by
      have := congrArg total eq
      rw [total_append] at this
      omega
    have whole : At (start + total pre + b.size) post o c := by
      rw [← eq, at_append]
      apply Or.inr
      rwa [gapSize, show start + total pre + b.size + (absorbRight post).2 =
        start + total (absorbLeft pre).1 +
          ((absorbLeft pre).2 + b.size + (absorbRight post).2) by omega]
    exact ⟨by omega, .inr (.inr whole)⟩

/-- The used blocks after a release are the others. -/
theorem usedAt_release {o : Nat} {b c : Block} (positive : Positive (pre ++ b :: post)) :
    UsedAt start (release pre b post) o c ↔
      o ≠ start + total pre ∧ UsedAt start (pre ++ b :: post) o c := by
  constructor
  · rintro ⟨used, h⟩
    obtain ⟨elsewhere, before⟩ := at_of_at_release positive used h
    exact ⟨elsewhere, used, before⟩
  · rintro ⟨elsewhere, used, h⟩
    exact ⟨used, at_release used elsewhere h⟩

end FirstFit
