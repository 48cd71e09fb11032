import EBBLib.MemMgr.Arena

/-!
# Calls on any well-formed arena

`alloc` searches from the prologue on and takes the first free block that is large
enough. The search reads headers of blocks only, and it ends because the walk over the
tiling ends exactly at the end of the arena. A request is safe unless its size wraps:
the wrapped size is tiny, so any free block satisfies it.
-/

namespace EBBLib.MemMgrPrimSimple

open FirstFit

/-- `alloc` terminates with the result `r`. -/
def Returns (self : Rep) (h : Heap) (size : Nat) (r : EBBRC × Nat × Heap) : Prop :=
  ∃ n, ∀ fuel, n ≤ fuel → alloc fuel self h size = some r

/-- The headers that the loop of `alloc` reads, in order. -/
def headersRead (h : Heap) (arenaEnd size : Nat) : Nat → Nat → List Nat
  | 0, _ => []
  | fuel + 1, hdr =>
      if hdr < arenaEnd then
        hdr ::
          if (h.word hdr).used ∨ h.size hdr < size then
            headersRead h arenaEnd size fuel (Word64.add hdr (h.size hdr))
          else []
      else []

section

variable {self : Rep} {h h' : Heap} {bs : List Block} {a e n size fuel : Nat}

theorem Returns.unique {r r' : EBBRC × Nat × Heap} (first : Returns self h size r)
    (second : Returns self h size r') : r = r' := by
  obtain ⟨n, first⟩ := first
  obtain ⟨m, second⟩ := second
  have same := (first (max n m) (Nat.le_max_left n m)).symm.trans
    (second (max n m) (Nat.le_max_right n m))
  exact Option.some.inj same

/-- The search depends on no other word. -/
theorem findFree_congr (agree : ∀ p ∈ headersRead h e n fuel a, h'.word p = h.word p) :
    findFree h' e n fuel a = findFree h e n fuel a := by
  induction fuel generalizing a with
  | zero => rfl
  | succ fuel ih =>
      rw [findFree, findFree]
      by_cases inside : a < e
      · rw [headersRead, if_pos inside] at agree
        have here : h'.word a = h.word a := agree a (by simp)
        have sizes : h'.size a = h.size a := by rw [Heap.size, here, Heap.size]
        rw [here, sizes]
        by_cases continues : (h.word a).used = true ∨ h.size a < n
        · rw [if_pos ⟨inside, continues⟩, if_pos ⟨inside, continues⟩]
          apply ih
          intro p read
          rw [if_pos continues] at agree
          exact agree p (by simp [read])
        · rw [if_neg (fun both => continues both.2), if_neg (fun both => continues both.2)]
      · rw [if_neg (fun both => inside both.1), if_neg (fun both => inside both.1)]

/-- On a tiled arena these are headers of its blocks. -/
theorem Tiles.headersRead (tiles : Tiles h a bs e) (fits : e < 2 ^ 64) {p : Nat}
    (read : p ∈ headersRead h e n fuel a) : p < e ∧ ∃ b, At a bs p b := by
  induction fuel generalizing a bs with
  | zero => cases read
  | succ fuel ih =>
      rw [MemMgrPrimSimple.headersRead] at read
      by_cases inside : a < e
      · rw [if_pos inside, List.mem_cons] at read
        cases bs with
        | nil =>
            have extent := tiles.limit
            rw [total_nil] at extent
            omega
        | cons b bs =>
            have extent := tiles.limit
            obtain ⟨_, _, small, hdr, _, rest⟩ := tiles
            have bytes : h.size a = b.size := by rw [Heap.size, hdr, tag_bytes small]
            rw [total_cons] at extent
            apply Or.elim read
            · rintro rfl
              exact ⟨inside, b, by simp⟩
            · intro later
              rw [bytes, Word64.add_of_lt (by omega)] at later
              split at later
              · obtain ⟨bound, c, block⟩ := ih rest later
                exact ⟨bound, c, .inr block⟩
              · cases later
      · rw [if_neg inside] at read
        cases read

namespace WellFormed

variable {pre post : List Block} {b : Block}

/-- When no block fits, the search ends behind the last one. -/
theorem alloc_none (w : WellFormed self h bs) (all : ∀ b ∈ bs, Skipped (adjust size) b)
    (enough : (guarded bs).length < fuel) :
    alloc fuel self h size = some (EBBRC.outOfResources, 0, h) := by
  refine w.tiles.alloc_none w.fits (fun b there => ?_) enough
  simp only [guarded, List.mem_cons, List.mem_append, List.not_mem_nil, or_false] at there
  obtain rfl | inner | rfl := there
  · exact .inl rfl
  · exact all b inner
  · exact .inl rfl

theorem alloc_fits (w : WellFormed self h (pre ++ b :: post)) (fits : Fits (adjust size) pre b)
    (enough : (guarded (pre ++ b :: post)).length < fuel) :
    alloc fuel self h size = some (EBBRC.ok, self.first + total pre + 8,
      MemMgrPrimSimple.carve h (self.first + total pre) (adjust size)) := by
  have tiles := w.tiles
  rw [guarded_middle] at tiles enough
  rw [List.length_append] at enough
  rw [tiles.alloc_fits w.fits (fits.cons_used rfl) (by omega), self.mem_add_guard]

/-- `alloc` terminates on every request. -/
theorem returns_cases (w : WellFormed self h bs) (size : Nat) :
    ((∀ b ∈ bs, Skipped (adjust size) b) ∧
      Returns self h size (EBBRC.outOfResources, 0, h)) ∨
    ∃ pre b post, bs = pre ++ b :: post ∧ Fits (adjust size) pre b ∧
      Returns self h size (EBBRC.ok, self.first + total pre + 8,
        MemMgrPrimSimple.carve h (self.first + total pre) (adjust size)) := by
  obtain all | ⟨pre, b, post, rfl, fits⟩ := skipped_or_fits (adjust size) bs
  · exact .inl ⟨all, _, fun _ enough => w.alloc_none all enough⟩
  · exact .inr ⟨pre, b, post, rfl, fits, _, fun _ enough => w.alloc_fits fits enough⟩

end WellFormed

/-! ### Searching -/

/-- The search reads headers of blocks in the arena and nothing else. It fails, without a
store, exactly when no free block is large enough, and otherwise takes the lowest one. -/
theorem alloc_first_fit (w : WellFormed self h bs) (nowrap : NoWrap size) :
    (∀ fuel, ∀ p ∈ headersRead h self.arenaEnd (adjust size) fuel self.mem,
      self.mem ≤ p ∧ p < self.arenaEnd ∧ ∃ b, At self.mem (guarded bs) p b) ∧
    (Returns self h size (EBBRC.outOfResources, 0, h) ↔
      ∀ b ∈ bs, b.used = false → b.size < (size + 2 * wordSize + 7) / 8 * 8) ∧
    ((∃ b ∈ bs, b.used = false ∧ (size + 2 * wordSize + 7) / 8 * 8 ≤ b.size) →
      ∃ o b h', At self.first bs o b ∧ b.used = false ∧
        (size + 2 * wordSize + 7) / 8 * 8 ≤ b.size ∧
        (∀ p c, At self.first bs p c → c.used = false →
          (size + 2 * wordSize + 7) / 8 * 8 ≤ c.size → o ≤ p) ∧
        Returns self h size (EBBRC.ok, o + wordSize, h')) := by
  have adjusted : (size + 2 * wordSize + 7) / 8 * 8 = adjust size := (adjust_eq nowrap).symm
  rw [adjusted]
  refine ⟨?_, ?_, ?_⟩
  · intro fuel p read
    obtain ⟨bound, b, block⟩ := w.tiles.headersRead w.fits read
    exact ⟨block.bounds.1, bound, b, block⟩
  · obtain ⟨all, refused⟩ | ⟨pre, b, post, rfl, fits, granted⟩ := w.returns_cases size
    · refine ⟨fun _ b hb free => ?_, fun _ => refused⟩
      apply (all b hb).resolve_left
      rw [free]
      exact Bool.false_ne_true
    · constructor
      · intro refused
        have same := congrArg Prod.fst (granted.unique refused)
        cases same
      · intro none
        have small := none b (by simp) fits.free
        have large := fits.large
        omega
  · rintro ⟨c, hc, free, large⟩
    obtain ⟨all, _⟩ | ⟨pre, b, post, rfl, fits, granted⟩ := w.returns_cases size
    · obtain used | small := all c hc
      · rw [free] at used
        cases used
      · omega
    · refine ⟨self.first + total pre, b, _, by simp, fits.free, fits.large, ?_, granted⟩
      exact fun p d block free large => fits.lowest block free large

theorem alloc_first_fit_page : ∃ h o b h', At 4144 [⟨4032, false⟩] o b ∧
    Returns ⟨4128, 8192⟩ h 100 (EBBRC.ok, o + wordSize, h') := by
  obtain ⟨h, w⟩ := wellFormed_page
  obtain ⟨_, _, found⟩ := alloc_first_fit w (show NoWrap 100 by decide)
  obtain ⟨o, b, h', block, _, _, _, run⟩ := found ⟨⟨4032, false⟩, by simp, rfl, by decide⟩
  exact ⟨h, o, b, h', block, run⟩

/-! ### Sizes that wrap -/

/-- What a request of `size` bytes may come to: a range in the payload of the free block
that it is carved from. A size that is out of range is refused. -/
structure AllocSafe (rep : Rep) (h : Heap) (bs : List Block) (size : Nat) : Prop where
  granted : ∀ p h', Returns rep h size (EBBRC.ok, p, h') →
    ∃ o b, At rep.first bs o b ∧ b.used = false ∧ p = o + wordSize ∧
      p + size + wordSize ≤ o + b.size
  refused : ¬ NoWrap size → Returns rep h size (EBBRC.outOfResources, 0, h)

/-- A request is safe if its size does not wrap, or if no free block is as large as the
wrapped size. -/
theorem allocSafe_iff (w : WellFormed self h bs) :
    AllocSafe self h bs size ↔
      NoWrap size ∨ ∀ b ∈ bs, b.used = false → b.size < adjust size := by
  obtain ⟨all, refused⟩ | ⟨pre, b, post, rfl, fits, granted⟩ := w.returns_cases size
  · -- A refused request is safe, and every free block is too small for it.
    refine ⟨fun _ => .inr fun b hb free => ?_, fun _ => ⟨fun p h' granted => ?_, fun _ => refused⟩⟩
    · apply (all b hb).resolve_left
      rw [free]
      exact Bool.false_ne_true
    · have same := congrArg Prod.fst (granted.unique refused)
      cases same
  · have block : At self.first (pre ++ b :: post) (self.first + total pre) b := by simp
    have large := fits.large
    constructor
    · intro safe
      by_contra neither
      obtain ⟨wraps, _⟩ := not_or.mp neither
      have same := congrArg Prod.fst (granted.unique (safe.refused wraps))
      cases same
    · intro condition
      have nowrap : NoWrap size := by
        apply condition.resolve_right
        intro none
        have := none b (by simp) fits.free
        omega
      refine ⟨fun p h' granted' => ?_, fun wraps => absurd nowrap wraps⟩
      have same := congrArg (fun r => r.2.1) (granted'.unique granted)
      refine ⟨_, b, block, fits.free, same, ?_⟩
      have sizes := adjust_eq nowrap
      simp only [wordSize] at same ⊢
      omega

theorem allocSafe_page : ∃ h, AllocSafe ⟨4128, 8192⟩ h [⟨4032, false⟩] 100 := by
  obtain ⟨h, w⟩ := wellFormed_page
  exact ⟨h, (allocSafe_iff w).mpr (.inl (by decide))⟩

/-- Adding the two tags to `2 ^ 64 - 16` makes it zero, and any free block is granted. -/
theorem exists_not_allocSafe : ∃ self h bs, WellFormed self h bs ∧
    ¬ AllocSafe self h bs (2 ^ 64 - 16) := by
  obtain ⟨h, w⟩ := wellFormed_page
  refine ⟨_, h, _, w, fun safe => ?_⟩
  obtain ⟨all, _⟩ | ⟨_, _, _, _, _, granted⟩ := w.returns_cases (2 ^ 64 - 16)
  · have skipped := all ⟨4032, false⟩ (by simp)
    revert skipped
    decide
  · have same := congrArg Prod.fst (granted.unique (safe.refused (by decide)))
    cases same

/-! ### Releases -/

/-- A release merges the block with its free neighbours, and changes no word but the final
header and footer of the merged block. -/
theorem free_coalesces {pre post : List Block} {b : Block}
    (w : WellFormed self h (pre ++ b :: post))
    (recorded : (size + 7) / 8 * 8 + 2 * wordSize = b.size) :
    ∃ h', free h size (self.first + total pre + wordSize) = some (EBBRC.ok, h') ∧
      WellFormed self h' (release pre b post) ∧
      ∀ p, p ≠ self.first + total (absorbLeft pre).1 →
        p ≠ self.first + total (absorbLeft pre).1 +
          ((absorbLeft pre).2 + b.size + (absorbRight post).2) - wordSize →
        h'.word p = h.word p := by
  obtain ⟨run, after⟩ := w.free recorded rfl rfl
  refine ⟨_, run, after, fun p header footer => ?_⟩
  rw [tagFree_word, if_neg]
  exact fun tagged => tagged.elim header footer

theorem free_coalesces_page : ∃ h h', free h 16 4152 = some (EBBRC.ok, h') ∧
    WellFormed ⟨4128, 8192⟩ h' [⟨4032, false⟩] := by
  obtain ⟨h, w⟩ := wellFormed_page
  have carved := @WellFormed.carve _ h [] [] _ 16 w (by decide)
    ⟨by simp, rfl, by decide⟩ (by intro exact_fit; cases exact_fit)
  obtain ⟨h', run, after, _⟩ := @free_coalesces _ _ 16 [] [⟨4000, false⟩] ⟨32, true⟩
    carved (by decide)
  exact ⟨_, h', run, after⟩

end

end EBBLib.MemMgrPrimSimple
