import EBBLib.Library.Coalescing
import EBBLib.MemMgr.Tiling

/-!
# Well-formed arenas

`init_rep` lays a used block without payload at both ends of the arena. In between
there are blocks in any number, and an arena is well formed when they tile it and no
two free ones are adjacent. On such an arena a call of `alloc` or `free` does what the
operations of the block list say, for every request.
-/

namespace EBBLib.MemMgrPrimSimple

open FirstFit

/-- Prologue and epilogue are used blocks without payload. -/
def guardBlock : Block := ⟨2 * wordSize, true⟩

/-- The blocks of an arena with the blocks `bs` between prologue and epilogue. -/
abbrev guarded (bs : List Block) : List Block := guardBlock :: (bs ++ [guardBlock])

/-- The end of the prologue. -/
def Rep.first (self : Rep) : Nat := self.mem + 2 * wordSize

/-- The guarded blocks with one block singled out. -/
theorem guarded_middle (pre : List Block) (b : Block) (post : List Block) :
    guarded (pre ++ b :: post) = (guardBlock :: pre) ++ b :: (post ++ [guardBlock]) := by
  simp

theorem Rep.mem_add_guard (self : Rep) (pre : List Block) :
    self.mem + total (guardBlock :: pre) = self.first + total pre := by
  simp only [total_cons, guardBlock, Rep.first, Nat.add_assoc]

/-- An arena with the blocks `bs` between prologue and epilogue, which may be single words. -/
structure WellFormed (rep : Rep) (h : Heap) (bs : List Block) : Prop where
  tiles : Tiles h rep.mem (guarded bs) rep.arenaEnd
  coalesced : Coalesced (guarded bs)
  room : rep.mem + 5 * wordSize ≤ rep.arenaEnd
  /-- The assertion at the end of `init_rep`. -/
  span : rep.arenaEnd - 2 * wordSize - rep.first ≤ maxBlockSize
  fits : rep.arenaEnd < 2 ^ 64


/-- Neither adding header and footer to the request nor rounding it up wraps. -/
def NoWrap (size : Nat) : Prop := (size + 2 * wordSize + 7) / 8 * 8 < 2 ^ 64

instance (size : Nat) : Decidable (NoWrap size) := inferInstanceAs (Decidable (_ < _))

/-! ### Sizes -/

theorem adjust_eq {size : Nat} (h : NoWrap size) : adjust size = (size + 16 + 7) / 8 * 8 := by
  have bound : (size + 16 + 7) / 8 * 8 < 2 ^ 64 := h
  have sum : Word64.add size 16 = size + 16 := Word64.add_of_lt (by omega)
  unfold adjust roundUp
  simp only [wordSize, Nat.reduceMul, sum]
  split
  · rw [Word64.add_of_lt (by omega)]
    omega
  · omega

theorem adjust_bounds {size : Nat} (h : NoWrap size) :
    16 ≤ adjust size ∧ adjust size % 8 = 0 := by
  rw [adjust_eq h]
  omega

theorem roundUp_of_lt {size : Nat} (bound : (size + 7) / 8 * 8 < 2 ^ 64) :
    roundUp size = (size + 7) / 8 * 8 := by
  rw [roundUp, wordSize]
  by_cases rounded : size % 8 = 0
  · rw [if_neg (not_not.mpr rounded)]
    omega
  · rw [if_pos rounded, Word64.add_of_lt (by omega)]
    omega

/-- `free` rounds the caller's size up to the payload that `alloc` recorded. -/
theorem roundUp_eq {size : Nat} (h : NoWrap size) : roundUp size = adjust size - 16 := by
  have bound : (size + 16 + 7) / 8 * 8 < 2 ^ 64 := h
  rw [adjust_eq h, roundUp_of_lt (by omega)]
  omega

/-! ### The initial arena -/

/-- An arena with aligned ends and room for prologue, epilogue and one free block. -/
structure Suitable (base arenaEnd : Nat) : Prop where
  aligned : base % wordSize = 0
  alignedEnd : arenaEnd % wordSize = 0
  room : base + repSize + 5 * wordSize ≤ arenaEnd
  fits : arenaEnd < 2 ^ 64

/-- The stores of `init_rep`, without wrapping. -/
theorem initRep_eq {base e : Nat} {h h' : Heap} {self : Rep} (suitable : Suitable base e)
    (run : initRep base e h = some (self, h')) :
    self = ⟨base + 32, e⟩ ∧ e - 16 - (base + 48) < 2 ^ 63 ∧
      ∀ p, h'.word p =
        if p = base + 48 ∨ p = e - 24 then tag ⟨e - 16 - (base + 48), false⟩
        else if p = base + 32 ∨ p = base + 40 ∨ p = e - 16 ∨ p = e - 8 then tag guardBlock
        else h.word p := by
  obtain ⟨aligned, alignedEnd, room, fits⟩ := suitable
  simp only [wordSize, repSize] at aligned alignedEnd room
  have mem : Word64.add base 32 = base + 32 := Word64.add_of_lt (by omega)
  have memAligned : (base + 32) % 8 = 0 := by omega
  have prologueFtr : Word64.add (base + 32) 8 = base + 40 := Word64.add_of_lt (by omega)
  have firstHdr : Word64.add (base + 40) 8 = base + 48 := Word64.add_of_lt (by omega)
  have epilogHdr : Word64.sub e 16 = e - 16 := Word64.sub_of_le (by omega) (by omega)
  have epilogFtr : Word64.add (e - 16) 8 = e - 8 := by
    rw [Word64.add_of_lt (by omega)]
    omega
  have extent : Word64.sub (e - 16) (base + 48) = e - 16 - (base + 48) :=
    Word64.sub_of_le (by omega) (by omega)
  simp only [initRep, wordSize, repSize, mem, memAligned, prologueFtr, firstHdr, epilogHdr,
    epilogFtr, extent, Nat.reduceMul, ne_eq, not_true_eq_false, if_false] at run
  split at run
  · rename_i small
    simp only [maxBlockSize] at small
    have size : (BitVec.ofNat 63 (e - 16 - (base + 48))).toNat = e - 16 - (base + 48) := by
      rw [BitVec.toNat_ofNat, Nat.mod_eq_of_lt (by omega)]
    have firstFtr : Word64.sub (Word64.add (base + 48) (e - 16 - (base + 48))) 8 = e - 24 := by
      rw [Word64.add_of_lt (by omega), Word64.sub_of_le (by omega) (by omega)]
      omega
    simp only [Heap.store, Heap.setUsed, Heap.setSize, Heap.size, Bumper.bytes,
      Function.update_self, size, firstFtr, Option.some.injEq, Prod.mk.injEq] at run
    obtain ⟨rfl, rfl⟩ := run
    refine ⟨rfl, by omega, fun p => ?_⟩
    simp only [Function.update_apply, tag, guardBlock, wordSize, Nat.reduceMul]
    grind
  · cases run

/-- `init_rep` makes a well-formed arena with one free block. -/
theorem wellFormed_init {base e : Nat} {h h' : Heap} {self : Rep} (suitable : Suitable base e)
    (run : initRep base e h = some (self, h')) :
    WellFormed self h' [⟨e - 16 - (base + 48), false⟩] := by
  obtain ⟨rfl, small, word⟩ := initRep_eq suitable run
  obtain ⟨aligned, alignedEnd, room, fits⟩ := suitable
  simp only [wordSize, repSize] at aligned alignedEnd room
  refine ⟨?_, ?_, ?_, ?_, fits⟩
  · simp only [List.cons_append, List.nil_append, Tiles, guardBlock, wordSize, Nat.reduceMul]
    refine ⟨by decide, by decide, by decide, ?_, ?_, by omega, by omega, small, ?_, ?_,
      by decide, by decide, by decide, ?_, ?_, by omega⟩
    · rw [word, if_neg (by omega), if_pos (by omega)]
      rfl
    · rw [word, if_neg (by omega), if_pos (by omega)]
      rfl
    · rw [word, if_pos (by omega)]
    · rw [word, if_pos (by omega)]
    · rw [word, if_neg (by omega), if_pos (by omega)]
      rfl
    · rw [word, if_neg (by omega), if_pos (by omega)]
      rfl
  · simp [Coalesced, guarded, guardBlock]
  · simp only [wordSize]
    omega
  · simp only [Rep.first, wordSize, maxBlockSize]
    omega

/-- Zeroed memory. -/
def blank : Heap := ⟨fun _ => ⟨0, false⟩, []⟩

/-- The arena of the page `[4096, 8192)`. -/
theorem wellFormed_page : ∃ h, WellFormed ⟨4128, 8192⟩ h [⟨4032, false⟩] := by
  have run : ∃ h, initRep 4096 8192 blank = some (⟨4128, 8192⟩, h) := ⟨_, rfl⟩
  obtain ⟨h, run⟩ := run
  have formed := wellFormed_init ⟨rfl, rfl, by decide, by decide⟩ run
  simp only [Nat.reduceAdd, Nat.reduceSub] at formed
  exact ⟨h, formed⟩

/-! ### Requests -/

/-- When no block fits, `alloc` reports it and leaves the heap alone. -/
theorem Tiles.alloc_none {self : Rep} {h : Heap} {bs : List Block} {size fuel : Nat}
    (tiles : Tiles h self.mem bs self.arenaEnd) (fits : self.arenaEnd < 2 ^ 64)
    (skipped : ∀ b ∈ bs, Skipped (adjust size) b) (enough : bs.length < fuel) :
    alloc fuel self h size = some (EBBRC.outOfResources, 0, h) := by
  rw [alloc, findFree_none tiles fits skipped enough]
  simp

/-- Otherwise it carves the first fit. -/
theorem Tiles.alloc_fits {self : Rep} {h : Heap} {pre post : List Block} {b : Block}
    {size fuel : Nat} (tiles : Tiles h self.mem (pre ++ b :: post) self.arenaEnd)
    (fits : self.arenaEnd < 2 ^ 64) (first : Fits (adjust size) pre b)
    (enough : pre.length < fuel) :
    alloc fuel self h size =
      some (EBBRC.ok, self.mem + total pre + 8, carve h (self.mem + total pre) (adjust size)) := by
  have extent := tiles.limit
  obtain ⟨_, ⟨positive, aligned, _⟩, _⟩ := tiles_middle.mp tiles
  simp only [total_append, total_cons] at extent
  rw [alloc, findFree_fits _ tiles fits first enough, Option.map_some, if_neg (by omega), wordSize,
    Word64.add_of_lt (by omega)]

/-! ### Releases between the guards -/

theorem absorbLeft_cons_used {c : Block} (used : c.used = true) (pre : List Block) :
    absorbLeft (c :: pre) = (c :: (absorbLeft pre).1, (absorbLeft pre).2) := by
  obtain rfl | ⟨pre, a, rfl⟩ := pre.eq_nil_or_concat
  · simp [absorbLeft, used]
  · rw [List.concat_eq_append, ← List.cons_append, absorbLeft_concat, absorbLeft_concat]
    split <;> rfl

theorem absorbRight_append_used {c : Block} (used : c.used = true) (post : List Block) :
    absorbRight (post ++ [c]) = ((absorbRight post).1 ++ [c], (absorbRight post).2) := by
  cases post with
  | nil => simp [used]
  | cons d post =>
      rw [List.cons_append, absorbRight_cons, absorbRight_cons]
      split <;> rfl

/-- The guards stay in place. -/
theorem release_guarded (pre : List Block) (b : Block) (post : List Block) :
    release (guardBlock :: pre) b (post ++ [guardBlock]) = guarded (release pre b post) := by
  rw [release, absorbLeft_cons_used rfl, absorbRight_append_used rfl, release]
  simp

namespace WellFormed

variable {self : Rep} {h : Heap} {bs pre post : List Block} {b : Block}

theorem extent (w : WellFormed self h bs) : self.first + total bs + 16 = self.arenaEnd := by
  have := w.tiles.limit
  simp only [total_cons, total_append, total_nil, guardBlock, wordSize] at this
  simp only [Rep.first, wordSize]
  omega

theorem unique {cs : List Block} (w : WellFormed self h bs) (w' : WellFormed self h cs) :
    bs = cs := by
  have same := w.tiles.unique w'.tiles
  rw [guarded, guarded, List.cons_inj_right] at same
  exact List.append_cancel_right same

theorem inner (w : WellFormed self h bs) : Coalesced bs :=
  (coalesced_append.mp w.coalesced.tail).1

theorem positive (w : WellFormed self h bs) : Positive bs := by
  intro b hb
  obtain ⟨pre, post, rfl⟩ := List.append_of_mem hb
  have block : At self.mem (guarded (pre ++ b :: post)) (self.mem + 16 + total pre) b := by
    simp [guarded, guardBlock, wordSize]
  exact w.tiles.at_pos block

/-- An allocation keeps the arena well formed if an exact fit does no harm. -/
theorem carve {size : Nat} (w : WellFormed self h (pre ++ b :: post)) (nowrap : NoWrap size)
    (fits : Fits (adjust size) pre b)
    (harmless : ExactFitHarmless (adjust size) b (post ++ [guardBlock])) :
    WellFormed self (MemMgrPrimSimple.carve h (self.first + total pre) (adjust size))
      (allocate (adjust size) pre b post) := by
  have sizes := adjust_bounds nowrap
  have tiles := w.tiles
  have coalesced := w.coalesced
  rw [guarded_middle] at tiles coalesced
  have inner : allocate (adjust size) (guardBlock :: pre) b (post ++ [guardBlock]) =
      guarded (allocate (adjust size) pre b post) := by
    simp [allocate]
  have first : Fits (adjust size) (guardBlock :: pre) b := fits.cons_used rfl
  have carved := carve_tiles tiles w.fits first sizes.1 sizes.2 coalesced harmless
  have kept := coalesced_allocate first coalesced
  rw [inner] at carved kept
  rw [self.mem_add_guard] at carved
  exact ⟨carved, kept, w.room, w.span, w.fits⟩

/-- The block of `bs` that is passed to `free` is released, and `free` writes nothing but
the tags of the merged block. -/
theorem free (w : WellFormed self h (pre ++ b :: post)) {size lo k : Nat}
    (recorded : (size + 7) / 8 * 8 + 2 * wordSize = b.size)
    (low : lo = self.first + total (absorbLeft pre).1)
    (merged : k = (absorbLeft pre).2 + b.size + (absorbRight post).2) :
    MemMgrPrimSimple.free h size (self.first + total pre + 8) = some (EBBRC.ok, tagFree h lo k) ∧
      WellFormed self (tagFree h lo k) (release pre b post) := by
  have extent := w.extent
  have left := total_absorbLeft pre
  have right := total_absorbRight post
  have span := w.span
  have tiles := w.tiles
  have coalesced := w.coalesced
  have limit := w.fits
  simp only [total_append, total_cons] at extent
  simp only [wordSize, maxBlockSize] at span recorded
  have rounds : roundUp size = b.size - 16 := by
    rw [roundUp_of_lt (by omega)]
    omega
  rw [guarded_middle] at tiles coalesced
  have low' : lo = self.mem + total (absorbLeft (guardBlock :: pre)).1 := by
    rw [absorbLeft_cons_used rfl, self.mem_add_guard, low]
  have merged' : k = (absorbLeft (guardBlock :: pre)).2 + b.size +
      (absorbRight (post ++ [guardBlock])).2 := by
    rw [absorbLeft_cons_used rfl, absorbRight_append_used rfl, merged]
  obtain ⟨run, after⟩ := free_tiles tiles w.fits (by simp) (by simp) (by omega) rounds low' merged'
    (by omega)
  rw [release_guarded] at after
  rw [self.mem_add_guard] at run
  refine ⟨run, after, ?_, w.room, w.span, w.fits⟩
  rw [← release_guarded]
  exact coalesced_release coalesced

end WellFormed

end EBBLib.MemMgrPrimSimple
