import EBBLib.Library.Transition
import EBBLib.MemMgr.Arena

/-!
# The arena along every run of allocations and frees

A run starts from `init_rep` on any aligned arena and performs any sequence of
`alloc` and `free` calls, where `free` is given an allocation that is live. The
state carries the live allocations with the length of the store log at their
return, so that a payload written behind its owner's back is visible.

`alloc` damages the arena when it uses up a free block exactly: it then copies the
block's tag over the header of the next block. `CleanFit` is the condition on a
call under which that does not happen, and the invariant holds in every run whose
calls all satisfy it.
-/

namespace EBBLib.MemMgrPrimSimple

open FirstFit

/-- A live allocation: the request, the pointer, and the length of the store log
when the pointer was returned. -/
structure Live where
  size : Nat
  ptr : Nat
  mark : Nat
deriving DecidableEq, Repr

/-- The end of the payload, which is the request rounded up to words. -/
def Live.limit (l : Live) : Nat := l.ptr + (adjust l.size - 2 * wordSize)

structure State where
  self : Rep
  heap : Heap
  live : List Live

inductive Call where
  | alloc (size : Nat)
  | free (size ptr : Nat)
deriving DecidableEq, Repr

/-- One call. A step is `none` when the call is outside the contract of the caller,
when the search does not end, or when the assertion in `free` fails. -/
def step (s : State) : Call → Option State
  | .alloc size =>
      if NoWrap size then
        (alloc s.self.arenaEnd s.self s.heap size).map fun (rc, p, h) =>
          if EBBRC.success rc then
            { s with heap := h, live := ⟨size, p, h.log.length⟩ :: s.live }
          else { s with heap := h }
      else none
  | .free size ptr =>
      (s.live.find? fun l => l.size = size ∧ l.ptr = ptr).bind fun l =>
        (free s.heap size ptr).map fun (_, h) =>
          { s with heap := h, live := s.live.erase l }

/-- The allocator on any suitable arena, right after `init_rep`. -/
def machine : Machine State Call where
  init s := ∃ base arenaEnd h, Suitable base arenaEnd ∧
    initRep base arenaEnd h = some (s.self, s.heap) ∧ s.live = []
  step := step

/-- The word at `p` does not overlap the payload of `l`. -/
def Avoids (l : Live) (p : Nat) : Prop := p + wordSize ≤ l.ptr ∨ l.limit ≤ p

/-- A well-formed arena together with its live allocations. -/
structure ArenaOk (s : State) : Prop where
  tiled : ∃ bs, Tiles s.heap s.self.mem (guardBlock :: (bs ++ [guardBlock])) s.self.arenaEnd ∧
    Coalesced (guardBlock :: (bs ++ [guardBlock]))
  disjoint : s.live.Pairwise fun l m => l.limit ≤ m.ptr ∨ m.limit ≤ l.ptr
  inside : ∀ l ∈ s.live, s.self.mem + 2 * wordSize ≤ l.ptr ∧
    l.limit ≤ s.self.arenaEnd - 2 * wordSize
  unwritten : ∀ l ∈ s.live, ∀ p ∈ s.heap.log.take (s.heap.log.length - l.mark), Avoids l p
  freeable : ∀ l ∈ s.live, ∃ h, free s.heap l.size l.ptr = some (EBBRC.ok, h)
  returns : ∀ size, NoWrap size → ∃ r, alloc s.self.arenaEnd s.self s.heap size = some r

/-- The condition on a call: when the first block that fits is used up exactly, the
block behind it has the same size. -/
def CleanFit (s : State) : Call → Prop
  | .alloc size => ∀ pre b post,
      Tiles s.heap s.self.mem (pre ++ b :: post) s.self.arenaEnd →
      Fits (adjust size) pre b → ExactFitHarmless (adjust size) b post
  | .free _ _ => True

/-! ### The invariant -/

/-- The arena represents the blocks `bs`, guarded at both ends, and every live
allocation owns a used block between the guards. -/
structure Represents (s : State) (bs : List Block) : Prop where
  tiles : Tiles s.heap s.self.mem bs s.self.arenaEnd
  coalesced : Coalesced bs
  fits : s.self.arenaEnd < 2 ^ 64
  room : s.self.mem + 40 ≤ s.self.arenaEnd
  span : s.self.arenaEnd < s.self.mem + 32 + 2 ^ 63
  prologue : At s.self.mem bs s.self.mem guardBlock
  epilogue : At s.self.mem bs (s.self.arenaEnd - 16) guardBlock
  owns : ∀ l ∈ s.live, NoWrap l.size ∧ 8 ≤ l.ptr ∧
    At s.self.mem bs (l.ptr - 8) ⟨adjust l.size, true⟩ ∧
    l.ptr - 8 ≠ s.self.mem ∧ l.ptr - 8 ≠ s.self.arenaEnd - 16
  distinct : s.live.Pairwise fun l m => l.ptr ≠ m.ptr
  unwritten : ∀ l ∈ s.live, l.mark ≤ s.heap.log.length ∧
    ∀ p ∈ s.heap.log.take (s.heap.log.length - l.mark), Avoids l p

namespace Represents

variable {s : State} {bs : List Block}

/-- The blocks of live allocations lie between the guards. -/
theorem inside (r : Represents s bs) {l : Live} (hl : l ∈ s.live) :
    s.self.mem + 16 ≤ l.ptr - 8 ∧ l.ptr - 8 + adjust l.size ≤ s.self.arenaEnd - 16 := by
  obtain ⟨nowrap, _, block, notFirst, notLast⟩ := r.owns l hl
  have sizes := adjust_bounds nowrap
  have first := block.disjoint r.prologue
  have last := block.disjoint r.epilogue
  have bounds := block.bounds
  have extent := r.tiles.limit
  simp only [guardBlock, wordSize] at first last bounds
  omega

/-- A used block that is passed by a store keeps its payload. -/
theorem avoids_of_outside (r : Represents s bs) {l : Live} (hl : l ∈ s.live) {p : Nat}
    (outside : p ≤ l.ptr - 8 ∨ l.ptr - 8 + adjust l.size ≤ p + 8) : Avoids l p := by
  obtain ⟨nowrap, positive, _⟩ := r.owns l hl
  have sizes := adjust_bounds nowrap
  simp only [Avoids, Live.limit, wordSize]
  omega

theorem pairwise_disjoint (r : Represents s bs) :
    s.live.Pairwise fun l m => l.limit ≤ m.ptr ∨ m.limit ≤ l.ptr := by
  refine r.distinct.imp_of_mem fun {l m} hl hm ne => ?_
  obtain ⟨lwrap, lpos, lblock, _⟩ := r.owns l hl
  obtain ⟨mwrap, mpos, mblock, _⟩ := r.owns m hm
  have lsize := adjust_bounds lwrap
  have msize := adjust_bounds mwrap
  have apart := lblock.disjoint mblock
  simp only [Live.limit, wordSize]
  simp only at apart
  omega

/-- The list begins and ends with a guard. -/
theorem guarded (r : Represents s bs) :
    ∃ mid, bs = guardBlock :: (mid ++ [guardBlock]) := by
  have extent := r.tiles.limit
  have room := r.room
  obtain ⟨pre, post, rfl, start⟩ := r.prologue.split
  have shortPre := (tiles_append.mp r.tiles).1.length_le
  obtain rfl : pre = [] := List.eq_nil_of_length_eq_zero (by omega)
  rcases r.epilogue with ⟨same, _⟩ | last
  · omega
  · obtain ⟨mid, rest, rfl, start'⟩ := last.split
    have shortPost := (tiles_middle.mp r.tiles).2.2.2.2
    have shortRest := (tiles_middle.mp shortPost).2.2.2.2.length_le
    simp only [List.nil_append, total_cons, total_append, guardBlock, wordSize] at extent start'
    obtain rfl : rest = [] := List.eq_nil_of_length_eq_zero (by omega)
    exact ⟨mid, rfl⟩

end Represents

/-- The blocks of a fresh arena. -/
theorem represents_init {s : State} (start : machine.init s) :
    ∃ bs, Represents s bs := by
  obtain ⟨base, e, h, suitable, run, live⟩ := start
  have formed := wellFormed_init suitable run
  obtain ⟨self, small, _⟩ := initRep_eq suitable run
  obtain ⟨aligned, alignedEnd, room, fits⟩ := suitable
  simp only [wordSize, repSize] at aligned alignedEnd room
  refine ⟨_, formed.tiles, formed.coalesced, formed.fits, formed.room, ?_, ?_, ?_, ?_, ?_, ?_⟩
  · rw [self]
    simp only
    omega
  · simp
  · rw [self]
    simp [guardBlock, wordSize]
    omega
  · simp [live]
  · simp [live]
  · simp [live]

/-! ### One call -/

namespace Represents

variable {s : State} {bs : List Block}

/-- A payload stays unwritten when the new stores pass the block that it is in. -/
theorem avoids_stores (r : Represents s bs) {l : Live} (hl : l ∈ s.live) {h : Heap}
    {stores : List Nat} (log : h.log = stores ++ s.heap.log)
    (outside : ∀ p ∈ stores, p ≤ l.ptr - 8 ∨ l.ptr - 8 + adjust l.size ≤ p + 8) :
    l.mark ≤ h.log.length ∧ ∀ p ∈ h.log.take (h.log.length - l.mark), Avoids l p := by
  obtain ⟨marked, unwritten⟩ := r.unwritten l hl
  have suffix : h.log.length - l.mark = stores.length + (s.heap.log.length - l.mark) := by
    rw [log, List.length_append]
    omega
  constructor
  · rw [log, List.length_append]
    omega
  · intro p stored
    rw [suffix, log, List.take_length_add_append, List.mem_append] at stored
    rcases stored with new | old
    · exact r.avoids_of_outside hl (outside p new)
    · exact unwritten p old

/-- `alloc` returns on every request. -/
theorem alloc_cases (r : Represents s bs) (size : Nat) :
    ((∀ b ∈ bs, Skipped (adjust size) b) ∧
      alloc s.self.arenaEnd s.self s.heap size = some (EBBRC.outOfResources, 0, s.heap)) ∨
    ∃ pre b post, bs = pre ++ b :: post ∧ Fits (adjust size) pre b ∧
      alloc s.self.arenaEnd s.self s.heap size =
        some (EBBRC.ok, s.self.mem + total pre + 8,
          MemMgrPrimSimple.carve s.heap (s.self.mem + total pre) (adjust size)) := by
  have extent := r.tiles.limit
  have short := r.tiles.length_le
  have room := r.room
  obtain all | ⟨pre, b, post, rfl, first⟩ := skipped_or_fits (adjust size) bs
  · exact .inl ⟨all, r.tiles.alloc_none r.fits all (by omega)⟩
  · rw [List.length_append] at short
    exact .inr ⟨pre, b, post, rfl, first, r.tiles.alloc_fits r.fits first (by omega)⟩

/-- A used block is not where the search has stopped. -/
theorem used_ne_fit {n o : Nat} {pre post : List Block} {b c : Block}
    (r : Represents s (pre ++ b :: post)) (first : Fits n pre b)
    (block : At s.self.mem (pre ++ b :: post) o c) (used : c.used = true) :
    o ≠ s.self.mem + total pre := by
  intro same
  have here : At s.self.mem (pre ++ b :: post) o b := by simp [same]
  have positive := r.tiles.at_pos here
  have positive' := r.tiles.at_pos block
  rcases block.disjoint here with ⟨_, rfl⟩ | apart
  · simp [first.free] at used
  · omega

/-- A granted request: the new block is owned by the new allocation, and every
address stored to lies in the free block or is the header behind it. -/
theorem alloc {size : Nat} {pre post : List Block} {b : Block} (nowrap : NoWrap size)
    (r : Represents s (pre ++ b :: post)) (first : Fits (adjust size) pre b)
    (harmless : ExactFitHarmless (adjust size) b post) :
    Represents
      { s with
        heap := MemMgrPrimSimple.carve s.heap (s.self.mem + total pre) (adjust size)
        live := ⟨size, s.self.mem + total pre + 8,
          (MemMgrPrimSimple.carve s.heap (s.self.mem + total pre) (adjust size)).log.length⟩ ::
            s.live }
      (allocate (adjust size) pre b post) := by
  have extent := r.tiles.limit
  have fits := r.fits
  have sizes := adjust_bounds nowrap
  have large := first.large
  obtain ⟨_, ⟨_, _, small⟩, hdr, ftr, _⟩ := tiles_middle.mp r.tiles
  obtain ⟨blockSize, used⟩ := b
  obtain rfl : used = false := first.free
  simp only [total_append, total_cons] at extent
  have log := carve_log hdr large sizes.1 ftr small (by omega)
  refine ⟨carve_tiles r.tiles fits first sizes.1 sizes.2 r.coalesced harmless,
    coalesced_allocate first r.coalesced, fits, r.room, r.span,
    at_allocate first rfl r.prologue, at_allocate first rfl r.epilogue, ?_, ?_, ?_⟩
  · rintro l (_ | ⟨_, hl⟩)
    · refine ⟨nowrap, Nat.le_add_left _ _, ?_, ?_, ?_⟩
      · exact at_allocate_self
      · exact (r.used_ne_fit first r.prologue rfl).symm
      · exact (r.used_ne_fit first r.epilogue rfl).symm
    · obtain ⟨wrap, positive, block, notFirst, notLast⟩ := r.owns l hl
      exact ⟨wrap, positive, at_allocate first rfl block, notFirst, notLast⟩
  · refine List.pairwise_cons.mpr ⟨fun l hl => ?_, r.distinct⟩
    obtain ⟨_, positive, block, _⟩ := r.owns l hl
    have apart := r.used_ne_fit first block rfl
    simp only
    omega
  · rintro l (_ | ⟨_, hl⟩)
    · simp
    · have own := (r.owns l hl).2.2.1
      have apart := own.disjoint (c := ⟨blockSize, false⟩) (p := s.self.mem + total pre) (by simp)
      have positive := r.tiles.at_pos own
      refine r.avoids_stores hl log fun p stored => ?_
      simp only [Block.mk.injEq, Bool.true_eq_false, and_false, false_or] at apart
      simp only [List.mem_cons, List.not_mem_nil, or_false] at stored
      simp only at large positive
      -- Every store is a tag in the free block, or the word right behind it.
      omega

/-- Live allocations other than `l` have other pointers. -/
theorem ptr_ne_of_erase (r : Represents s bs) {l m : Live} (hm : m ∈ s.live.erase l)
    (hl : l ∈ s.live) : m ∈ s.live ∧ m.ptr ≠ l.ptr := by
  have nodup : s.live.Nodup := r.distinct.imp fun ne same => ne (congrArg Live.ptr same)
  obtain ⟨other, live⟩ := nodup.mem_erase_iff.mp hm
  have symmetric : Std.Symm fun a b : Live => a.ptr ≠ b.ptr := ⟨fun _ _ => Ne.symm⟩
  exact ⟨live, r.distinct.forall live hl other⟩

/-- The free of a live allocation releases its block. -/
theorem free {l : Live} (r : Represents s bs) (hl : l ∈ s.live) :
    ∃ h bs', MemMgrPrimSimple.free s.heap l.size l.ptr = some (EBBRC.ok, h) ∧
      Represents { s with heap := h, live := s.live.erase l } bs' := by
  obtain ⟨nowrap, positive, block, notFirst, notLast⟩ := r.owns l hl
  have inside := r.inside hl
  have sizes := adjust_bounds nowrap
  have fits := r.fits
  have room := r.room
  have span := r.span
  obtain ⟨pre, post, rfl, start⟩ := block.split
  have hpre : pre ≠ [] := by
    rintro rfl
    simp only [total_nil] at start
    omega
  have hpost : post ≠ [] := by
    rintro rfl
    have extent := r.tiles.limit
    simp only [total_append, total_cons, total_nil] at extent
    omega
  have ptr : l.ptr = s.self.mem + total pre + 8 := by omega
  -- The merged block lies between the guards, which the release leaves in place.
  have merged : At s.self.mem (release pre ⟨adjust l.size, true⟩ post)
      (s.self.mem + total (absorbLeft pre).1)
      ⟨(absorbLeft pre).2 + adjust l.size + (absorbRight post).2, false⟩ := by
    simp [release]
  have prologue := at_release rfl (by omega) r.prologue
  have epilogue := at_release rfl (by omega) r.epilogue
  have afterPrologue := merged.disjoint prologue
  have beforeEpilogue := merged.disjoint epilogue
  simp only [guardBlock, wordSize, Block.mk.injEq, Bool.false_eq_true, and_false, false_or]
    at afterPrologue beforeEpilogue
  have extent := r.tiles.limit
  have left := total_absorbLeft pre
  have right := total_absorbRight post
  simp only [total_append, total_cons] at extent
  obtain ⟨run, tiles⟩ := free_tiles r.tiles fits hpre hpost sizes.1 (roundUp_eq nowrap) rfl rfl
    (by simp only; omega)
  rw [← ptr] at run
  refine ⟨_, _, run, tiles, coalesced_release r.coalesced, fits, room, span, prologue, epilogue,
    ?_, r.distinct.sublist List.erase_sublist, ?_⟩
  · intro m hm
    obtain ⟨live, other⟩ := r.ptr_ne_of_erase hm hl
    obtain ⟨wrap, mpos, mblock, mfirst, mlast⟩ := r.owns m live
    have elsewhere : m.ptr - 8 ≠ s.self.mem + total pre := by omega
    exact ⟨wrap, mpos, at_release rfl elsewhere mblock, mfirst, mlast⟩
  · intro m hm
    obtain ⟨live, other⟩ := r.ptr_ne_of_erase hm hl
    obtain ⟨wrap, mpos, mblock, _⟩ := r.owns m live
    have elsewhere : m.ptr - 8 ≠ s.self.mem + total pre := by omega
    have apart := (at_release rfl elsewhere mblock).disjoint merged
    simp only [Block.mk.injEq, Bool.true_eq_false, and_false, false_or] at apart
    have msizes := adjust_bounds wrap
    refine r.avoids_stores live (tagFree_log _ _ _) fun p stored => ?_
    simp only [List.mem_cons, List.not_mem_nil, or_false] at stored
    omega

/-- Every call whose exact fits are clean keeps the arena represented. -/
theorem step {c : Call} {t : State} (r : Represents s bs) (clean : CleanFit s c)
    (moved : machine.step s c = some t) : ∃ bs', Represents t bs' := by
  cases c with
  | alloc size =>
      simp only [machine, MemMgrPrimSimple.step] at moved
      split at moved
      · rename_i nowrap
        rcases r.alloc_cases size with ⟨_, run⟩ | ⟨pre, b, post, rfl, first, run⟩
        · rw [run, Option.map_some, Option.some.injEq] at moved
          obtain rfl := moved
          exact ⟨bs, r⟩
        · rw [run, Option.map_some, Option.some.injEq] at moved
          obtain rfl := moved
          exact ⟨_, r.alloc nowrap first (clean pre b post r.tiles first)⟩
      · cases moved
  | free size ptr =>
      simp only [machine, MemMgrPrimSimple.step, Option.bind_eq_some_iff] at moved
      obtain ⟨l, found, moved⟩ := moved
      have matched := List.find?_some found
      simp only [decide_eq_true_eq] at matched
      obtain ⟨rfl, rfl⟩ := matched
      obtain ⟨h, bs', run, kept⟩ := r.free (List.mem_of_find?_eq_some found)
      rw [run, Option.map_some, Option.some.injEq] at moved
      obtain rfl := moved
      exact ⟨bs', kept⟩

theorem arenaOk (r : Represents s bs) : ArenaOk s := by
  refine ⟨?_, r.pairwise_disjoint, fun l hl => ?_, fun l hl => (r.unwritten l hl).2,
    fun l hl => ?_, fun size _ => ?_⟩
  · obtain ⟨mid, rfl⟩ := r.guarded
    exact ⟨mid, r.tiles, r.coalesced⟩
  · have inside := r.inside hl
    have sizes := adjust_bounds (r.owns l hl).1
    simp only [Live.limit, wordSize]
    omega
  · obtain ⟨h, _, run, _⟩ := r.free hl
    exact ⟨h, run⟩
  · rcases r.alloc_cases size with ⟨_, run⟩ | ⟨_, _, _, _, _, run⟩
    · exact ⟨_, run⟩
    · exact ⟨_, run⟩

end Represents

/-- In every run whose exact fits are clean the arena stays well formed. -/
theorem arenaOk_of_cleanFit {s : State} (run : machine.ReachVia CleanFit s) : ArenaOk s := by
  have represented : ∃ bs, Represents s bs :=
    run.invariant (I := fun s => ∃ bs, Represents s bs) (fun _ => represents_init)
      fun _ _ _ _ ⟨_, r⟩ clean moved => r.step clean moved
  obtain ⟨_, r⟩ := represented
  exact r.arenaOk

/-! ### Concrete runs -/

/-- The allocator on the page `[4096, 8192)`. -/
def page : State :=
  { self := ⟨4128, 8192⟩
    heap := ((initRep 4096 8192 blank).map Prod.snd).getD blank
    live := [] }

theorem page_init : machine.init page :=
  ⟨4096, 8192, blank, ⟨by decide, by decide, by decide, by decide⟩, rfl, rfl⟩

/-- `CleanFit` as a test that runs the search of `alloc`. -/
def SearchClean (s : State) : Call → Prop
  | .alloc size =>
      s.self.arenaEnd < 2 ^ 64 ∧
        ∀ hdr ∈ findFree s.heap s.self.arenaEnd (adjust size) s.self.arenaEnd s.self.mem,
          s.heap.size hdr = adjust size →
            s.heap.size (hdr + adjust size) = adjust size
  | .free _ _ => True

instance (s : State) (c : Call) : Decidable (SearchClean s c) := by
  cases c <;> unfold SearchClean <;> infer_instance

theorem cleanFit_of_searchClean {s : State} {c : Call} (clean : SearchClean s c) :
    CleanFit s c := by
  cases c with
  | free _ _ => trivial
  | alloc size =>
      obtain ⟨fits, clean⟩ := clean
      intro pre b post tiles first exact next isNext
      have extent := tiles.limit
      have short := tiles.length_le
      simp only [total_append, total_cons, List.length_append, List.length_cons] at extent short
      obtain ⟨_, ⟨positive, _, small⟩, hdr, _, rest⟩ := tiles_middle.mp tiles
      have found := findFree_fits s.self.arenaEnd tiles fits first (by omega)
      cases post with
      | nil => cases isNext
      | cons d post =>
          obtain rfl : d = next := by simpa using isNext
          obtain ⟨_, _, nextSmall, nextHdr, _, _⟩ := rest
          have size := clean _ found
          rw [Heap.size, hdr, tag_bytes small, ← exact, Heap.size, nextHdr,
            tag_bytes nextSmall] at size
          rw [size rfl, exact]

/-- A run in which a released block is reused by a smaller request. -/
theorem arenaOk_page : ∃ s, machine.ReachVia CleanFit s ∧ s.live.length = 2 ∧ ArenaOk s := by
  have run : (machine.execVia SearchClean page
      [.alloc 100, .alloc 8, .free 100 4152, .alloc 16]).any fun s => s.live.length = 2 := by
    decide
  obtain ⟨s, moved, live⟩ := (Option.any_eq_true _ _).mp run
  have reached : machine.ReachVia CleanFit s :=
    (Machine.reachVia_of_execVia page_init moved).mono fun _ _ => cleanFit_of_searchClean
  exact ⟨s, reached, by simpa using live, arenaOk_of_cleanFit reached⟩

/-- Reusing a freed block of exactly the requested size damages the header of the
block behind it, whose own release then fails its assertion. -/
theorem exists_reach_not_arenaOk : ∃ s, machine.Reach s ∧ ¬ ArenaOk s := by
  have run : (machine.exec page
      [.alloc 16, .alloc 8, .free 16 4152, .alloc 16]).any fun s =>
        s.live.any fun l => (free s.heap l.size l.ptr).isNone := by
    decide +kernel
  obtain ⟨s, moved, damaged⟩ := (Option.any_eq_true _ _).mp run
  obtain ⟨l, live, fails⟩ := List.any_eq_true.mp damaged
  refine ⟨s, Machine.reachVia_of_execVia page_init moved, fun ok => ?_⟩
  obtain ⟨h, succeeds⟩ := ok.freeable l live
  rw [succeeds] at fails
  cases fails

end EBBLib.MemMgrPrimSimple
