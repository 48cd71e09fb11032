import EBBLib.Library.FirstFit
import EBBLib.MemMgr.Simple

/-!
# Heaps that represent a list of blocks

`Tiles h a bs e` walks the heap from `a` by the sizes in the header words. The
walk visits the blocks `bs`, finds the same word in each footer as in the header,
and ends exactly at `e`. On such heaps the search, the carving and the release of
the source compute the operations of the block list, which is where the shape of
the arena is reasoned about.

`carve` copies the footer of the free block to the word after the new block. When
the free block is used up entirely that word is the next block's header, so the
exact fit needs its own description of the stores and its own hypothesis.
-/

namespace EBBLib.MemMgrPrimSimple

open FirstFit

/-- The header and footer word of a block. -/
def tag (b : Block) : Bumper := { size := BitVec.ofNat 63 b.size, used := b.used }

@[simp] theorem tag_used (b : Block) : (tag b).used = b.used := rfl

theorem tag_bytes {b : Block} (small : b.size < 2 ^ 63) : (tag b).bytes = b.size := by
  simp only [tag, Bumper.bytes, BitVec.toNat_ofNat]
  exact Nat.mod_eq_of_lt small

/-- The walk from `a` by header sizes visits `bs` and ends at `e`. -/
def Tiles (h : Heap) : Nat → List Block → Nat → Prop
  | a, [], e => a = e
  | a, b :: bs, e =>
      0 < b.size ∧ b.size % 8 = 0 ∧ b.size < 2 ^ 63 ∧
        h.word a = tag b ∧ h.word (a + b.size - 8) = tag b ∧ Tiles h (a + b.size) bs e

theorem Tiles.limit {h : Heap} {a e : Nat} {bs : List Block} (tiles : Tiles h a bs e) :
    a + total bs = e := by
  induction bs generalizing a with
  | nil => exact tiles
  | cons b bs ih =>
      obtain ⟨_, _, _, _, _, rest⟩ := tiles
      rw [total_cons, ← Nat.add_assoc]
      exact ih rest

theorem tiles_append {h : Heap} {a e : Nat} {xs ys : List Block} :
    Tiles h a (xs ++ ys) e ↔
      Tiles h a xs (a + total xs) ∧ Tiles h (a + total xs) ys e := by
  induction xs generalizing a with
  | nil => simp [Tiles]
  | cons b xs ih =>
      simp only [List.cons_append, Tiles, ih, total_cons, Nat.add_assoc]
      tauto

instance (h : Heap) : (a : Nat) → (bs : List Block) → (e : Nat) → Decidable (Tiles h a bs e)
  | a, [], e => inferInstanceAs (Decidable (a = e))
  | a, b :: bs, e =>
      have := instDecidableTiles h (a + b.size) bs e
      inferInstanceAs (Decidable (_ ∧ _ ∧ _ ∧ _ ∧ _ ∧ _))

theorem tag_inj {b c : Block} (smallB : b.size < 2 ^ 63) (smallC : c.size < 2 ^ 63)
    (same : tag b = tag c) : b = c := by
  have sizes := congrArg Bumper.bytes same
  rw [tag_bytes smallB, tag_bytes smallC] at sizes
  exact congrArg₂ Block.mk sizes (congrArg Bumper.used same)

/-- A heap represents one list of blocks. -/
theorem Tiles.unique {h : Heap} {a e : Nat} {xs ys : List Block} (first : Tiles h a xs e)
    (second : Tiles h a ys e) : xs = ys := by
  induction xs generalizing a ys with
  | nil =>
      cases ys with
      | nil => rfl
      | cons c ys =>
          have extent := second.limit
          have positive := second.1
          have start : a = e := first
          rw [total_cons] at extent
          omega
  | cons b xs ih =>
      cases ys with
      | nil =>
          have extent := first.limit
          have positive := first.1
          have start : a = e := second
          rw [total_cons] at extent
          omega
      | cons c ys =>
          obtain ⟨_, _, smallB, hdrB, _, restB⟩ := first
          obtain ⟨_, _, smallC, hdrC, _, restC⟩ := second
          obtain rfl := tag_inj smallB smallC (hdrB.symm.trans hdrC)
          rw [ih restB restC]

/-- The walk only reads words inside the region that it tiles. -/
theorem Tiles.frame {h h' : Heap} {a e : Nat} {bs : List Block} (tiles : Tiles h a bs e)
    (agree : ∀ p, a ≤ p → p < e → h'.word p = h.word p) : Tiles h' a bs e := by
  induction bs generalizing a with
  | nil => exact tiles
  | cons b bs ih =>
      have extent := tiles.limit
      obtain ⟨pos, aligned, small, hdr, ftr, rest⟩ := tiles
      rw [total_cons] at extent
      refine ⟨pos, aligned, small, ?_, ?_, ih rest fun p lo hi => agree p (by omega) hi⟩
      · rw [agree a (by omega) (by omega), hdr]
      · rw [agree _ (by omega) (by omega), ftr]

theorem Tiles.length_le {h : Heap} {a e : Nat} {bs : List Block} (tiles : Tiles h a bs e) :
    8 * bs.length ≤ total bs := by
  induction bs generalizing a with
  | nil => exact Nat.le_refl 0
  | cons b bs ih =>
      obtain ⟨pos, aligned, _, _, _, rest⟩ := tiles
      have := ih rest
      simp only [List.length_cons, total_cons]
      omega

theorem tiles_cons {h : Heap} {a e : Nat} {b : Block} {bs : List Block} :
    Tiles h a (b :: bs) e ↔
      0 < b.size ∧ b.size % 8 = 0 ∧ b.size < 2 ^ 63 ∧
        h.word a = tag b ∧ h.word (a + b.size - 8) = tag b ∧ Tiles h (a + b.size) bs e :=
  Iff.rfl

/-- A tiling with one of its blocks singled out. -/
theorem tiles_middle {h : Heap} {a e : Nat} {pre post : List Block} {b : Block} :
    Tiles h a (pre ++ b :: post) e ↔
      Tiles h a pre (a + total pre) ∧
      (0 < b.size ∧ b.size % 8 = 0 ∧ b.size < 2 ^ 63) ∧
      h.word (a + total pre) = tag b ∧ h.word (a + total pre + b.size - 8) = tag b ∧
      Tiles h (a + total pre + b.size) post e := by
  rw [tiles_append, tiles_cons]
  tauto

theorem Tiles.at_pos {h : Heap} {a e o : Nat} {b : Block} {bs : List Block}
    (tiles : Tiles h a bs e) (block : At a bs o b) : 0 < b.size := by
  obtain ⟨pre, post, rfl, _⟩ := block.split
  exact (tiles_middle.mp tiles).2.1.1

/-- The header of a block is its tag. -/
theorem Tiles.header {h : Heap} {a e o : Nat} {b : Block} {bs : List Block}
    (tiles : Tiles h a bs e) (block : At a bs o b) : h.word o = tag b := by
  obtain ⟨pre, post, rfl, rfl⟩ := block.split
  exact (tiles_middle.mp tiles).2.2.1

/-! ### The search -/

/-- The search passes over a prefix of skipped blocks, one iteration each. -/
theorem findFree_skip {h : Heap} {a e n : Nat} {pre : List Block} (post : List Block) (fuel : Nat)
    (tiles : Tiles h a (pre ++ post) e) (fits : e < 2 ^ 64)
    (skipped : ∀ b ∈ pre, Skipped n b) :
    findFree h e n (pre.length + fuel) a = findFree h e n fuel (a + total pre) := by
  induction pre generalizing a with
  | nil => simp
  | cons b pre ih =>
      have extent := tiles.limit
      rw [List.cons_append, total_cons] at extent
      obtain ⟨pos, _, small, hdr, _, rest⟩ := tiles
      have bytes : h.size a = b.size := by rw [Heap.size, hdr, tag_bytes small]
      have continues : a < e ∧ ((h.word a).used = true ∨ h.size a < n) := by
        refine ⟨by omega, ?_⟩
        rw [bytes, hdr, tag_used]
        exact skipped b (by simp)
      rw [List.length_cons, Nat.add_right_comm, findFree, if_pos continues, bytes,
        Word64.add_of_lt (by omega), ih rest fun c hc => skipped c (by simp [hc]),
        total_cons, Nat.add_assoc]

/-- A search that finds no block stops at the end of the arena. -/
theorem findFree_none {h : Heap} {a e n fuel : Nat} {bs : List Block}
    (tiles : Tiles h a bs e) (fits : e < 2 ^ 64) (skipped : ∀ b ∈ bs, Skipped n b)
    (enough : bs.length < fuel) : findFree h e n fuel a = some e := by
  obtain ⟨rest, rfl⟩ := Nat.exists_eq_add_of_lt enough
  have run := findFree_skip [] (rest + 1) (by simpa using tiles) fits skipped
  rw [Nat.add_assoc, run, tiles.limit, findFree, if_neg (by simp)]

/-- A search stops at the first block that fits. -/
theorem findFree_fits {h : Heap} {a e n : Nat} {pre post : List Block} {b : Block} (fuel : Nat)
    (tiles : Tiles h a (pre ++ b :: post) e) (fits : e < 2 ^ 64) (first : Fits n pre b)
    (enough : pre.length < fuel) : findFree h e n fuel a = some (a + total pre) := by
  obtain ⟨rest, rfl⟩ := Nat.exists_eq_add_of_lt enough
  obtain ⟨_, ⟨_, _, small⟩, hdr, _, _⟩ := tiles_middle.mp tiles
  have stops : ¬ (a + total pre < e ∧
      ((h.word (a + total pre)).used = true ∨ h.size (a + total pre) < n)) := by
    rw [Heap.size, hdr, tag_bytes small, tag_used, first.free]
    have := first.large
    simp
    omega
  rw [Nat.add_assoc, findFree_skip _ _ tiles fits first.skipped, findFree, if_neg stops]

/-! ### Carving a block -/

section Carve

variable {h : Heap} {hdr n s : Nat}

/-- The stores of `carve` on a free block of `s` bytes, without wrapping. -/
theorem carve_eq (word : h.word hdr = tag ⟨s, false⟩) (large : n ≤ s) (room : 16 ≤ n)
    (ftr : h.word (hdr + s - 8) = tag ⟨s, false⟩)
    (small : s < 2 ^ 63) (fits : hdr + s < 2 ^ 64) :
    carve h hdr n =
      let h := h.store hdr (tag ⟨s, true⟩)
      let h := h.store (hdr + s - 8) (tag ⟨s - n, false⟩)
      let h := h.store hdr (tag ⟨n, true⟩)
      let h := h.store (hdr + n - 8) (tag ⟨n, true⟩)
      h.store (hdr + n) (h.word (hdr + s - 8)) := by
  have size : (BitVec.ofNat 63 s).toNat = s := by
    rw [BitVec.toNat_ofNat, Nat.mod_eq_of_lt small]
  have size' : (BitVec.ofNat 63 n).toNat = n := by
    rw [BitVec.toNat_ofNat, Nat.mod_eq_of_lt (by omega)]
  have apart : hdr + s - 8 ≠ hdr := by omega
  have far : Word64.sub (Word64.add hdr s) 8 = hdr + s - 8 := by
    rw [Word64.add_of_lt (by omega), Word64.sub_of_le (by omega) (by omega)]
  have rest : Word64.sub s n = s - n := Word64.sub_of_le large (by omega)
  have near : Word64.sub (Word64.add hdr n) 8 = hdr + n - 8 := by
    rw [Word64.add_of_lt (by omega), Word64.sub_of_le (by omega) (by omega)]
  have next : Word64.add (hdr + n - 8) 8 = hdr + n := by
    rw [Word64.add_of_lt (by omega)]
    omega
  simp [carve, Heap.store, Heap.setUsed, Heap.setSize, Heap.size, Bumper.bytes, wordSize,
    word, ftr, tag, size, size', apart, apart.symm, far, near, next, rest]

/-- After a split the remainder's words hold its new size. -/
theorem carve_word_split (word : h.word hdr = tag ⟨s, false⟩) (proper : n < s) (room : 16 ≤ n)
    (ftr : h.word (hdr + s - 8) = tag ⟨s, false⟩) (aligned : n % 8 = 0) (aligned' : s % 8 = 0)
    (small : s < 2 ^ 63) (fits : hdr + s < 2 ^ 64) (p : Nat) :
    (carve h hdr n).word p =
      if p = hdr + n ∨ p = hdr + s - 8 then tag ⟨s - n, false⟩
      else if p = hdr ∨ p = hdr + n - 8 then tag ⟨n, true⟩
      else h.word p := by
  have kept : hdr + s - 8 ≠ hdr ∧ hdr + s - 8 ≠ hdr + n - 8 := by omega
  rw [carve_eq word (by omega) room ftr small fits]
  simp only [Heap.store, Function.update_apply, kept.1, kept.2, if_false, if_true]
  grind

/-- After an exact fit the word behind the block holds the block's own tag. -/
theorem carve_word_exact (word : h.word hdr = tag ⟨n, false⟩) (room : 16 ≤ n)
    (ftr : h.word (hdr + n - 8) = tag ⟨n, false⟩)
    (small : n < 2 ^ 63) (fits : hdr + n < 2 ^ 64) (p : Nat) :
    (carve h hdr n).word p =
      if p = hdr ∨ p = hdr + n - 8 ∨ p = hdr + n then tag ⟨n, true⟩ else h.word p := by
  rw [carve_eq word (Nat.le_refl n) room ftr small fits]
  simp only [Heap.store, Function.update_apply, if_true]
  grind

/-- The addresses that `carve` stores to, newest first. -/
theorem carve_log (word : h.word hdr = tag ⟨s, false⟩) (large : n ≤ s) (room : 16 ≤ n)
    (ftr : h.word (hdr + s - 8) = tag ⟨s, false⟩)
    (small : s < 2 ^ 63) (fits : hdr + s < 2 ^ 64) :
    (carve h hdr n).log = [hdr + n, hdr + n - 8, hdr, hdr + s - 8, hdr] ++ h.log := by
  rw [carve_eq word large room ftr small fits]
  rfl

end Carve

/-- The block behind an exact fit must have the size of the block itself: then the
store into its header repeats the word that is there. -/
def ExactFitHarmless (n : Nat) (b : Block) (post : List Block) : Prop :=
  b.size = n → ∀ c ∈ post.head?, c.size = n

/-- Carving the first fit represents the allocation of the block list. -/
theorem carve_tiles {h : Heap} {a e n : Nat} {pre post : List Block} {b : Block}
    (tiles : Tiles h a (pre ++ b :: post) e) (fits : e < 2 ^ 64) (first : Fits n pre b)
    (room : 16 ≤ n) (aligned : n % 8 = 0) (coalesced : Coalesced (pre ++ b :: post))
    (harmless : ExactFitHarmless n b post) :
    Tiles (carve h (a + total pre) n) a (allocate n pre b post) e := by
  have extent := tiles.limit
  simp only [total_append, total_cons] at extent
  obtain ⟨hpre, ⟨_, aligned', small⟩, hdr, ftr, hpost⟩ := tiles_middle.mp tiles
  obtain ⟨s, u⟩ := b
  obtain rfl : u = false := first.free
  have large : n ≤ s := first.large
  simp only at *
  by_cases exact : s = n
  · subst exact
    have word := carve_word_exact hdr room ftr small (by omega)
    -- The next block is used and of the same size, so its header keeps its word.
    have next : ∀ p, a + total pre + s ≤ p → p < e →
        (carve h (a + total pre) s).word p = h.word p := by
      intro p lo hi
      rw [word, ite_eq_right_iff]
      intro stored
      have here : p = a + total pre + s := by omega
      cases post with
      | nil =>
          have : total ([] : List Block) = 0 := rfl
          omega
      | cons c post =>
          have size : c.size = s := harmless rfl c rfl
          have used : c.used = true := by
            have chain := (coalesced_append.mp coalesced).2.1
            simpa using (List.isChain_cons_cons.mp chain).1
          obtain ⟨_, _, _, chdr, _, _⟩ := hpost
          rw [here, chdr, tag, tag, size, used]
    rw [allocate, FirstFit.carve, if_pos rfl, List.append_assoc]
    refine tiles_middle.mpr ⟨?_, ⟨by omega, aligned, small⟩, ?_, ?_, ?_⟩
    · refine hpre.frame fun p _ hi => ?_
      rw [word, if_neg (by omega)]
    · rw [word, if_pos (by omega)]
    · simp only
      rw [word, if_pos (by omega)]
    · exact hpost.frame next
  · have word := carve_word_split hdr (by omega) room ftr aligned aligned' small (by omega)
    rw [allocate, FirstFit.carve, if_neg exact, List.append_assoc]
    refine tiles_middle.mpr ⟨?_, ⟨by simp only; omega, aligned, by simp only; omega⟩, ?_, ?_, ?_⟩
    · refine hpre.frame fun p _ hi => ?_
      rw [word, if_neg (by omega), if_neg (by omega)]
    · rw [word, if_neg (by omega), if_pos (by omega)]
    · simp only
      rw [word, if_neg (by omega), if_pos (by omega)]
    · have seam : a + total pre + n + (s - n) = a + total pre + s := by omega
      refine ⟨by simp only; omega, by simp only; omega, by simp only; omega, ?_, ?_, ?_⟩
      · simp only
        rw [word, if_pos (by omega)]
      · simp only [seam]
        rw [word, if_pos (by omega)]
      · simp only [seam]
        refine hpost.frame fun p lo hi => ?_
        rw [word, if_neg (by omega), if_neg (by omega)]

/-! ### Releasing a block -/

/-- The footer word in front of a block, and the header that it leads to. -/
theorem Tiles.left {h : Heap} {a e : Nat} {pre : List Block} {c : Block}
    (tiles : Tiles h a (pre ++ [c]) e) :
    (8 ≤ c.size ∧ c.size < 2 ^ 63 ∧ a + total pre + c.size = e) ∧
      h.word (e - 8) = tag c ∧ h.word (e - c.size) = tag c := by
  obtain ⟨_, ⟨pos, aligned, small⟩, hdr, ftr, extent⟩ := tiles_middle.mp tiles
  have extent : a + total pre + c.size = e := extent
  refine ⟨⟨by omega, small, extent⟩, ?_, ?_⟩
  · rw [← extent, ftr]
  · rw [← hdr]
    congr 1
    omega

/-- What `free` reads: the block at `q` and the two blocks next to it. -/
structure Surrounded (h : Heap) (c : Block) (q : Nat) (b d : Block) : Prop where
  left : 8 ≤ c.size ∧ c.size < 2 ^ 63 ∧ c.size ≤ q
  leftFtr : h.word (q - 8) = tag c
  leftHdr : h.word (q - c.size) = tag c
  block : 16 ≤ b.size ∧ b.size < 2 ^ 63
  hdr : h.word q = tag b
  right : 8 ≤ d.size ∧ d.size < 2 ^ 63 ∧ q + b.size + d.size < 2 ^ 64
  rightHdr : h.word (q + b.size) = tag d
  rightFtr : h.word (q + b.size + d.size - 8) = tag d

/-- Tag the `k` bytes from `lo` as one free block. -/
def tagFree (h : Heap) (lo k : Nat) : Heap :=
  let h := h.setSize lo k
  let h := h.setUsed lo false
  h.store (lo + k - 8) (h.word lo)

theorem tagFree_log (h : Heap) (lo k : Nat) :
    (tagFree h lo k).log = [lo + k - 8, lo, lo] ++ h.log := rfl

theorem tagFree_word (h : Heap) (lo k p : Nat) :
    (tagFree h lo k).word p =
      if p = lo ∨ p = lo + k - 8 then tag ⟨k, false⟩ else h.word p := by
  simp only [tagFree, Heap.store, Heap.setUsed, Heap.setSize, tag, Function.update_apply]
  grind

/-- The stores of `free`, without wrapping: the merged block is tagged. -/
theorem free_local {h : Heap} {q size : Nat} {b c d : Block} (s : Surrounded h c q b d)
    (recorded : roundUp size = b.size - 16)
    (span : c.size + b.size + d.size < 2 ^ 64) :
    free h size (q + 8) =
      some (EBBRC.ok, tagFree h (if c.used then q else q - c.size)
        ((if c.used then 0 else c.size) + b.size + if d.used then 0 else d.size)) := by
  obtain ⟨⟨c8, csmall, cq⟩, cftr, chdr, ⟨b16, bsmall⟩, hdr, ⟨d8, dsmall, fits⟩, dhdr, dftr⟩ := s
  have back : Word64.sub (q + 8) 8 = q := by
    rw [Word64.sub_of_le (by omega) (by omega)]
    omega
  have blockSize : h.size q = b.size := by rw [Heap.size, hdr, tag_bytes bsmall]
  have assertion : Word64.sub b.size 16 = b.size - 16 := Word64.sub_of_le b16 (by omega)
  have toLeft : Word64.sub q 8 = q - 8 := Word64.sub_of_le (by omega) (by omega)
  have leftSize : h.size (q - 8) = c.size := by rw [Heap.size, cftr, tag_bytes csmall]
  have leftSize' : h.size (q - c.size) = c.size := by rw [Heap.size, chdr, tag_bytes csmall]
  -- For a one-word neighbour at address 0 the subtraction wraps and the addition wraps back.
  have leftHdr : Word64.add (Word64.sub (q - 8) c.size) 8 = q - c.size := by
    unfold Word64.add Word64.sub
    omega
  have blockFtr : Word64.sub (Word64.add q b.size) 8 = q + b.size - 8 := by
    rw [Word64.add_of_lt (by omega), Word64.sub_of_le (by omega) (by omega)]
  have toRight : Word64.add (q + b.size - 8) 8 = q + b.size := by
    rw [Word64.add_of_lt (by omega)]
    omega
  have rightSize : h.size (q + b.size) = d.size := by rw [Heap.size, dhdr, tag_bytes dsmall]
  have rightFtr : Word64.sub (Word64.add (q + b.size) d.size) 8 = q + b.size + d.size - 8 := by
    rw [Word64.add_of_lt (by omega), Word64.sub_of_le (by omega) (by omega)]
  have rightSize' : h.size (q + b.size + d.size - 8) = d.size := by
    rw [Heap.size, dftr, tag_bytes dsmall]
  have sumLeft : Word64.add b.size c.size = c.size + b.size := by
    rw [Word64.add_of_lt (by omega), Nat.add_comm]
  have sumRight : Word64.add b.size d.size = b.size + d.size := Word64.add_of_lt (by omega)
  have sumBoth : Word64.add (c.size + b.size) d.size = c.size + b.size + d.size :=
    Word64.add_of_lt (by omega)
  have ends : q - c.size + (c.size + b.size) = q + b.size ∧
      q + (b.size + d.size) = q + b.size + d.size ∧
      q - c.size + (c.size + b.size + d.size) = q + b.size + d.size := by omega
  cases cu : c.used <;> cases du : d.used <;>
    simp [free, tagFree, wordSize, back, blockSize, recorded, assertion, toLeft, cftr, leftSize,
      leftHdr,
      leftSize', blockFtr, toRight, dhdr, rightSize, rightFtr, rightSize', sumLeft, sumRight,
      sumBoth, ends, cu, du]

/-- Inside a tiling a block is surrounded by its list neighbours. -/
theorem Tiles.surrounded {h : Heap} {a e : Nat} {pre post : List Block} {b c d : Block}
    (tiles : Tiles h a ((pre ++ [c]) ++ b :: d :: post) e) (fits : e < 2 ^ 64)
    (room : 16 ≤ b.size) : Surrounded h c (a + total (pre ++ [c])) b d := by
  have extent := tiles.limit
  obtain ⟨hleft, ⟨_, _, small⟩, hdr, _, hright⟩ := tiles_middle.mp tiles
  obtain ⟨⟨c8, csmall, cextent⟩, cftr, chdr⟩ := hleft.left
  obtain ⟨dpos, daligned, dsmall, dhdr, dftr, _⟩ := hright
  simp only [total_append, total_cons, total_nil, Nat.add_zero] at extent
  refine
    ⟨⟨c8, csmall, by omega⟩, cftr, chdr, ⟨room, small⟩, hdr, ⟨by omega, dsmall, ?_⟩, dhdr, dftr⟩
  simp only [total_append, total_cons, total_nil, Nat.add_zero]
  omega

theorem Tiles.aligned {h : Heap} {a e : Nat} {bs : List Block} (tiles : Tiles h a bs e) :
    total bs % 8 = 0 := by
  induction bs generalizing a with
  | nil => rfl
  | cons b bs ih =>
      obtain ⟨_, aligned, _, _, _, rest⟩ := tiles
      have := ih rest
      rw [total_cons]
      omega

theorem Tiles.absorbLeft {h : Heap} {a e : Nat} {pre : List Block} (tiles : Tiles h a pre e) :
    Tiles h a (absorbLeft pre).1 (a + total (absorbLeft pre).1) := by
  rcases pre.eq_nil_or_concat with rfl | ⟨pre, c, rfl⟩
  · rfl
  · rw [List.concat_eq_append] at *
    rw [absorbLeft_concat]
    split
    · rwa [tiles.limit]
    · exact (tiles_append.mp tiles).1

theorem Tiles.absorbRight {h : Heap} {a e : Nat} {post : List Block} (tiles : Tiles h a post e) :
    Tiles h (a + (absorbRight post).2) (absorbRight post).1 e := by
  cases post with
  | nil => exact tiles
  | cons d post =>
      rw [absorbRight_cons]
      split
      · exact tiles
      · obtain ⟨_, _, _, _, _, rest⟩ := tiles
        exact rest

/-- Freeing a block represents its release in the block list. The stores are the
first and the last word of the merged block. -/
theorem free_tiles {h : Heap} {a e size lo k : Nat} {pre post : List Block} {b : Block}
    (tiles : Tiles h a (pre ++ b :: post) e) (fits : e < 2 ^ 64)
    (hpre : pre ≠ []) (hpost : post ≠ []) (room : 16 ≤ b.size)
    (recorded : roundUp size = b.size - 16)
    (low : lo = a + total (FirstFit.absorbLeft pre).1)
    (merged : k = (FirstFit.absorbLeft pre).2 + b.size + (FirstFit.absorbRight post).2)
    (small : k < 2 ^ 63) :
    free h size (a + total pre + 8) = some (EBBRC.ok, tagFree h lo k) ∧
      Tiles (tagFree h lo k) a (release pre b post) e := by
  have left := total_absorbLeft pre
  have right := total_absorbRight post
  constructor
  · obtain ⟨pre, c, rfl⟩ := pre.eq_nil_or_concat.resolve_left hpre
    obtain ⟨d, post, rfl⟩ := List.exists_cons_of_ne_nil hpost
    rw [List.concat_eq_append] at *
    have around := tiles.surrounded fits room
    have bound : c.size + b.size + d.size < 2 ^ 64 := by
      obtain ⟨⟨_, _, cq⟩, _, _, _, _, ⟨_, _, bound⟩, _, _⟩ := around
      omega
    rw [free_local around recorded bound, low, merged, absorbLeft_concat, absorbRight_cons]
    congr 3
    · split
      · rfl
      · simp only [total_append, total_cons, total_nil]
        omega
    · split <;> split <;> rfl
  · have extent := tiles.limit
    obtain ⟨hleft, ⟨_, aligned, _⟩, _, _, hright⟩ := tiles_middle.mp tiles
    have hleft' := hleft.absorbLeft
    have hright' := hright.absorbRight
    have leftAligned := hleft.aligned
    have rightAligned := hright.aligned
    have leftAligned' := hleft'.aligned
    have rightAligned' := hright'.aligned
    have high : a + total pre + b.size + (FirstFit.absorbRight post).2 = lo + k := by omega
    simp only [total_append, total_cons] at extent
    rw [high] at hright'
    rw [← low] at hleft'
    refine tiles_middle.mpr ?_
    rw [← low, ← merged]
    refine ⟨?_, ⟨by simp only; omega, by simp only; omega, small⟩, ?_, ?_, ?_⟩
    · refine hleft'.frame fun p _ hi => ?_
      rw [tagFree_word, if_neg (by omega)]
    · rw [tagFree_word, if_pos (by omega)]
    · simp only
      rw [tagFree_word, if_pos (by omega)]
    · refine hright'.frame fun p lo _ => ?_
      rw [tagFree_word, if_neg (by omega)]

end EBBLib.MemMgrPrimSimple
