import EBBLib.MemMgr.Calls
import EBBLib.MemMgr.Run

/-!
# The order of frees

A release takes one block out of the used ones and leaves the others where they are.
After several releases, in whatever order, the arena is coalesced and has the same used
blocks, so it has the same blocks. `alloc` reads headers only, so that it cannot tell
two heaps with the same blocks apart.

The words between the tags depend on the order. They stay unread as long as no request
uses up a free block exactly and damages the header behind it.
-/

namespace EBBLib.MemMgrPrimSimple

open FirstFit

/-- Calls of `free`, each with the size and the pointer that it is given. The result is
`none` when an assertion fails. -/
def freeAll (h : Heap) : List (Nat × Nat) → Option Heap
  | [] => some h
  | (size, mem) :: calls => (free h size mem).bind fun (_, h) => freeAll h calls

/-- The return code and the pointer of a call, and the heap. -/
def serve (self : Rep) (h : Heap) : Call → Option ((EBBRC × Nat) × Heap)
  | .alloc size => (alloc self.arenaEnd self h size).map fun (rc, mem, h) => ((rc, mem), h)
  | .free size mem => (free h size mem).map fun (rc, h) => ((rc, 0), h)

/-- What a sequence of calls returns. -/
def serveAll (self : Rep) (h : Heap) : List Call → Option (List (EBBRC × Nat) × Heap)
  | [] => some ([], h)
  | call :: calls =>
      (serve self h call).bind fun (r, h) =>
        (serveAll self h calls).map fun (rs, h) => (r :: rs, h)

/-- A call for the payload of a used block, with a size that rounds up to it. -/
def FreesLive (self : Rep) (bs : List Block) (call : Nat × Nat) : Prop :=
  ∃ o b, UsedAt self.first bs o b ∧ call.2 = o + wordSize ∧
    (call.1 + 7) / 8 * 8 + 2 * wordSize = b.size

/-- A request that is granted does not wrap, and if it uses up a free block exactly, the block
behind it has the same size. What is freed is allocated. -/
def Clean (self : Rep) (h : Heap) : Call → Prop
  | .alloc size => ∀ pre b post, WellFormed self h (pre ++ b :: post) →
      Fits (adjust size) pre b →
        NoWrap size ∧ ExactFitHarmless (adjust size) b (post ++ [guardBlock])
  | .free size mem => ∀ bs, WellFormed self h bs → FreesLive self bs (size, mem)

/-- Each call is clean when it is made. -/
def AllClean (self : Rep) (h : Heap) : List Call → Prop
  | [] => True
  | call :: calls => Clean self h call ∧ ∀ x ∈ serve self h call, AllClean self x.2 calls

section

variable {self : Rep} {h h₁ h₂ : Heap} {bs cs : List Block} {calls : List (Nat × Nat)}

theorem WellFormed.freeAll (w : WellFormed self h bs)
    (live : ∀ call ∈ calls, FreesLive self bs call)
    (distinct : (calls.map Prod.snd).Nodup) :
    ∃ h' cs, MemMgrPrimSimple.freeAll h calls = some h' ∧ WellFormed self h' cs ∧
      ∀ o b, UsedAt self.first cs o b ↔
        UsedAt self.first bs o b ∧ o + wordSize ∉ calls.map Prod.snd := by
  induction calls generalizing h bs with
  | nil => exact ⟨h, bs, rfl, w, by simp⟩
  | cons call calls ih =>
      obtain ⟨size, mem⟩ := call
      obtain ⟨o, b, ⟨_, block⟩, pointer, recorded⟩ := live (size, mem) (by simp)
      simp only at pointer recorded
      obtain ⟨pre, post, rfl, rfl⟩ := block.split
      obtain ⟨run, after⟩ := w.free recorded rfl rfl
      rw [List.map_cons, List.nodup_cons] at distinct
      -- The blocks of the other calls are still there.
      have rest : ∀ call ∈ calls, FreesLive self (release pre b post) call := by
        intro call later
        obtain ⟨p, c, other, pointer', recorded'⟩ := live call (by simp [later])
        refine ⟨p, c, (usedAt_release w.positive).mpr ⟨?_, other⟩, pointer', recorded'⟩
        rintro rfl
        rw [pointer, ← pointer'] at distinct
        exact distinct.1 (List.mem_map.mpr ⟨call, later, rfl⟩)
      obtain ⟨h', cs, runs, formed, remaining⟩ := ih after rest distinct.2
      refine ⟨h', cs, ?_, formed, fun p c => ?_⟩
      · rw [MemMgrPrimSimple.freeAll]
        rw [pointer, wordSize, run, Option.bind_some]
        exact runs
      · rw [remaining, usedAt_release w.positive, List.map_cons, List.mem_cons, not_or,
          pointer, Nat.add_left_inj, and_assoc, and_left_comm]

/-- The used blocks determine the others. -/
theorem WellFormed.eq_of_used (w : WellFormed self h bs) (coalesced : Coalesced cs)
    (positive : Positive cs) (extent : self.first + total cs + 16 = self.arenaEnd)
    (same : ∀ o b, UsedAt self.first bs o b ↔ UsedAt self.first cs o b) : bs = cs := by
  have extents := w.extent.trans extent.symm
  exact w.inner.unique coalesced w.positive positive (by omega) same

/-- `alloc` returns the same on two heaps with the same blocks. -/
theorem WellFormed.alloc_congr (w₁ : WellFormed self h₁ bs) (w₂ : WellFormed self h₂ bs)
    (fuel size : Nat) :
    (alloc fuel self h₁ size).map (fun r => (r.1, r.2.1)) =
      (alloc fuel self h₂ size).map fun r => (r.1, r.2.1) := by
  have found : findFree h₁ self.arenaEnd (adjust size) fuel self.mem =
      findFree h₂ self.arenaEnd (adjust size) fuel self.mem := by
    apply findFree_congr
    intro p read
    obtain ⟨_, b, block⟩ := w₂.tiles.headersRead w₂.fits read
    rw [w₁.tiles.header block, w₂.tiles.header block]
  rw [alloc, alloc, found]
  cases findFree h₂ self.arenaEnd (adjust size) fuel self.mem with
  | none => simp only [Option.map_none]
  | some hdr =>
      simp only [Option.map_some]
      split <;> simp only

/-- The end of the arena is fuel enough for a search. -/
theorem WellFormed.length_lt (w : WellFormed self h bs) :
    (guarded bs).length < self.arenaEnd := by
  have extent := w.tiles.limit
  have short := w.tiles.length_le
  have room := w.room
  simp only [wordSize] at room
  omega

/-- On heaps with the same blocks a clean call has the same result and leaves the same blocks. -/
theorem WellFormed.serve_same (w₁ : WellFormed self h₁ bs) (w₂ : WellFormed self h₂ bs)
    {call : Call} (clean : Clean self h₁ call) :
    ∃ r k₁ k₂ cs, serve self h₁ call = some (r, k₁) ∧ serve self h₂ call = some (r, k₂) ∧
      WellFormed self k₁ cs ∧ WellFormed self k₂ cs := by
  cases call with
  | alloc size =>
      obtain all | ⟨pre, b, post, rfl, fits⟩ := skipped_or_fits (adjust size) bs
      · exact ⟨_, h₁, h₂, bs, by rw [serve, w₁.alloc_none all w₁.length_lt]; rfl,
          by rw [serve, w₂.alloc_none all w₂.length_lt]; rfl, w₁, w₂⟩
      · obtain ⟨nowrap, harmless⟩ := clean pre b post w₁ fits
        exact ⟨_, _, _, _, by rw [serve, w₁.alloc_fits fits w₁.length_lt]; rfl,
          by rw [serve, w₂.alloc_fits fits w₂.length_lt]; rfl, w₁.carve nowrap fits harmless,
          w₂.carve nowrap fits harmless⟩
  | free size mem =>
      obtain ⟨o, b, ⟨_, block⟩, pointer, recorded⟩ := clean bs w₁
      simp only at pointer recorded
      obtain ⟨pre, post, rfl, rfl⟩ := block.split
      obtain ⟨run₁, after₁⟩ := w₁.free recorded rfl rfl
      obtain ⟨run₂, after₂⟩ := w₂.free recorded rfl rfl
      rw [pointer, wordSize]
      exact ⟨_, _, _, _, by rw [serve, run₁]; rfl, by rw [serve, run₂]; rfl, after₁, after₂⟩

/-- So does a sequence of calls. -/
theorem WellFormed.serveAll_same {later : List Call} (w₁ : WellFormed self h₁ bs)
    (w₂ : WellFormed self h₂ bs) (clean : AllClean self h₁ later) :
    ∃ rs k₁ k₂ cs, serveAll self h₁ later = some (rs, k₁) ∧
      serveAll self h₂ later = some (rs, k₂) ∧ WellFormed self k₁ cs ∧ WellFormed self k₂ cs := by
  induction later generalizing h₁ h₂ bs with
  | nil => exact ⟨[], h₁, h₂, bs, rfl, rfl, w₁, w₂⟩
  | cons call later ih =>
      obtain ⟨first, rest⟩ := clean
      obtain ⟨r, k₁, k₂, cs, run₁, run₂, after₁, after₂⟩ := w₁.serve_same w₂ first
      obtain ⟨rs, l₁, l₂, ds, runs₁, runs₂, final⟩ := ih after₁ after₂ (rest _ run₁)
      refine ⟨r :: rs, l₁, l₂, ds, ?_, ?_, final⟩
      · simp only [serveAll, run₁, Option.bind_some, runs₁, Option.map_some]
      · simp only [serveAll, run₂, Option.bind_some, runs₂, Option.map_some]

/-- Two orders of the same frees lead to the same blocks. The next request has the same result,
and so have all later calls as long as they are clean. When all used blocks have been freed,
one free block is left. -/
theorem free_order {calls' : List (Nat × Nat)} (w : WellFormed self h bs)
    (live : ∀ call ∈ calls, FreesLive self bs call)
    (live' : ∀ call ∈ calls', FreesLive self bs call) (distinct : (calls.map Prod.snd).Nodup)
    (perm : (calls.map Prod.snd).Perm (calls'.map Prod.snd)) :
    ∃ h₁ h₂ cs, freeAll h calls = some h₁ ∧ freeAll h calls' = some h₂ ∧
      WellFormed self h₁ cs ∧ WellFormed self h₂ cs ∧
      (∀ fuel size, (alloc fuel self h₁ size).map (fun r => (r.1, r.2.1)) =
        (alloc fuel self h₂ size).map fun r => (r.1, r.2.1)) ∧
      (∀ later, AllClean self h₁ later → ∃ rs k₁ k₂ ds,
        serveAll self h₁ later = some (rs, k₁) ∧ serveAll self h₂ later = some (rs, k₂) ∧
          WellFormed self k₁ ds ∧ WellFormed self k₂ ds) ∧
      ((∀ o b, UsedAt self.first bs o b → o + wordSize ∈ calls.map Prod.snd) →
        cs = [⟨self.arenaEnd - 2 * wordSize - self.first, false⟩]) := by
  obtain ⟨h₁, cs, run₁, formed₁, used₁⟩ := w.freeAll live distinct
  obtain ⟨h₂, ds, run₂, formed₂, used₂⟩ := w.freeAll live' (perm.nodup_iff.mp distinct)
  have same : ∀ o b, UsedAt self.first cs o b ↔ UsedAt self.first ds o b := by
    intro o b
    rw [used₁, used₂, perm.mem_iff]
  obtain rfl := formed₁.eq_of_used formed₂.inner formed₂.positive formed₂.extent same
  refine ⟨h₁, h₂, cs, run₁, run₂, formed₁, formed₂, formed₁.alloc_congr formed₂,
    fun later clean => formed₁.serveAll_same formed₂ clean, fun all => ?_⟩
  have room := w.room
  simp only [wordSize] at room
  have size : self.first = self.mem + 16 := rfl
  apply formed₁.eq_of_used
  · exact .singleton _
  · intro b hb
    rw [List.mem_singleton.mp hb]
    simp only [wordSize]
    omega
  · simp only [total_cons, total_nil, wordSize]
    omega
  · intro o b
    constructor
    · intro remaining
      obtain ⟨before, kept⟩ := (used₁ o b).mp remaining
      exact absurd (all o b before) kept
    · rintro ⟨used, ⟨_, rfl⟩ | none⟩
      · cases used
      · cases none

/-- Two adjacent blocks, freed from left to right and from right to left, and a request after
that. -/
theorem free_order_page : ∃ h h₁ h₂ rs k₁ k₂, freeAll h [(16, 4152), (8, 4184)] = some h₁ ∧
    freeAll h [(8, 4184), (16, 4152)] = some h₂ ∧
    WellFormed ⟨4128, 8192⟩ h₁ [⟨4032, false⟩] ∧ WellFormed ⟨4128, 8192⟩ h₂ [⟨4032, false⟩] ∧
    serveAll ⟨4128, 8192⟩ h₁ [.alloc 8] = some (rs, k₁) ∧
    serveAll ⟨4128, 8192⟩ h₂ [.alloc 8] = some (rs, k₂) := by
  obtain ⟨h, w⟩ := wellFormed_page
  have one := @WellFormed.carve _ h [] [] _ 16 w (by decide)
    ⟨by simp, rfl, by decide⟩ (by intro exact_fit; cases exact_fit)
  have two := @WellFormed.carve _ _ [⟨32, true⟩] [] ⟨4000, false⟩ 8
    one (by decide) ⟨by simp [Skipped], rfl, by decide⟩ (by intro exact_fit; cases exact_fit)
  have left : FreesLive ⟨4128, 8192⟩ [⟨32, true⟩, ⟨24, true⟩, ⟨3976, false⟩] (16, 4152) :=
    ⟨4144, ⟨32, true⟩, ⟨rfl, .inl ⟨rfl, rfl⟩⟩, rfl, rfl⟩
  have right : FreesLive ⟨4128, 8192⟩ [⟨32, true⟩, ⟨24, true⟩, ⟨3976, false⟩] (8, 4184) :=
    ⟨4176, ⟨24, true⟩, ⟨rfl, .inr (.inl ⟨rfl, rfl⟩)⟩, rfl, rfl⟩
  obtain ⟨h₁, h₂, cs, run₁, run₂, formed₁, formed₂, _, later, all⟩ :=
    @free_order _ _ _ [(16, 4152), (8, 4184)] [(8, 4184), (16, 4152)] two
      (by simp only [List.forall_mem_cons]; exact ⟨left, right, by simp⟩)
      (by simp only [List.forall_mem_cons]; exact ⟨right, left, by simp⟩)
      (by decide) (List.Perm.swap ..)
  have single : cs = [⟨4032, false⟩] := by
    apply all
    rintro o b ⟨used, ⟨rfl, _⟩ | ⟨rfl, _⟩ | ⟨_, rfl⟩ | none⟩
    · simp [Rep.first, wordSize]
    · simp [Rep.first, wordSize]
    · cases used
    · cases none
  rw [single] at formed₁ formed₂
  have clean : AllClean ⟨4128, 8192⟩ h₁ [.alloc 8] := by
    refine ⟨fun pre b post w _ => ⟨by decide, fun exact_fit => ?_⟩, fun _ _ => trivial⟩
    have there : b ∈ [⟨4032, false⟩] := w.unique formed₁ ▸ List.mem_append_right pre (by simp)
    rw [List.mem_singleton.mp there] at exact_fit
    cases exact_fit
  obtain ⟨rs, k₁, k₂, _, runs₁, runs₂, _⟩ := later [.alloc 8] clean
  exact ⟨_, h₁, h₂, rs, k₁, k₂, run₁, run₂, formed₁, formed₂, runs₁, runs₂⟩

/-- Four blocks at the beginning of a page. -/
def fourBlocks : Heap :=
  ((serveAll ⟨4128, 8192⟩ page.heap [.alloc 8, .alloc 16, .alloc 8, .alloc 16]).map
    (·.2)).getD blank

/-- Three of the blocks are freed, the middle one last or first. A request uses up the lowest
block exactly and copies its tag over the header behind it, from where the search goes on to a
word that depends on the order. -/
theorem exists_order_matters : ∃ self h bs calls calls',
    WellFormed self h bs ∧ (∀ call ∈ calls, FreesLive self bs call) ∧ (calls.map Prod.snd).Nodup ∧
      calls.Perm calls' ∧ ∃ h₁ h₂ later, freeAll h calls = some h₁ ∧ freeAll h calls' = some h₂ ∧
        (serveAll self h₁ later).map (·.1) = some [(EBBRC.ok, 4152), (EBBRC.ok, 4232)] ∧
        (serveAll self h₂ later).map (·.1) = some [(EBBRC.ok, 4152), (EBBRC.ok, 4264)] := by
  have formed : WellFormed ⟨4128, 8192⟩ fourBlocks
      [⟨24, true⟩, ⟨32, true⟩, ⟨24, true⟩, ⟨32, true⟩, ⟨3920, false⟩] :=
    ⟨by decide +kernel, by simp [Coalesced, guarded, guardBlock], by decide, by decide, by decide⟩
  have first : FreesLive ⟨4128, 8192⟩
      [⟨24, true⟩, ⟨32, true⟩, ⟨24, true⟩, ⟨32, true⟩, ⟨3920, false⟩] (8, 4152) :=
    ⟨4144, ⟨24, true⟩, ⟨rfl, .inl ⟨rfl, rfl⟩⟩, rfl, rfl⟩
  have third : FreesLive ⟨4128, 8192⟩
      [⟨24, true⟩, ⟨32, true⟩, ⟨24, true⟩, ⟨32, true⟩, ⟨3920, false⟩] (8, 4208) :=
    ⟨4200, ⟨24, true⟩, ⟨rfl, .inr (.inr (.inl ⟨rfl, rfl⟩))⟩, rfl, rfl⟩
  have fourth : FreesLive ⟨4128, 8192⟩
      [⟨24, true⟩, ⟨32, true⟩, ⟨24, true⟩, ⟨32, true⟩, ⟨3920, false⟩] (16, 4232) :=
    ⟨4224, ⟨32, true⟩, ⟨rfl, .inr (.inr (.inr (.inl ⟨rfl, rfl⟩)))⟩, rfl, rfl⟩
  have upwards : ((freeAll fourBlocks [(8, 4152), (16, 4232), (8, 4208)]).bind fun h =>
      (serveAll ⟨4128, 8192⟩ h [.alloc 8, .alloc 40]).map (·.1)) =
      some [(EBBRC.ok, 4152), (EBBRC.ok, 4232)] := by decide +kernel
  have downwards : ((freeAll fourBlocks [(8, 4208), (16, 4232), (8, 4152)]).bind fun h =>
      (serveAll ⟨4128, 8192⟩ h [.alloc 8, .alloc 40]).map (·.1)) =
      some [(EBBRC.ok, 4152), (EBBRC.ok, 4264)] := by decide +kernel
  obtain ⟨h₁, run₁, returned₁⟩ := Option.bind_eq_some_iff.mp upwards
  obtain ⟨h₂, run₂, returned₂⟩ := Option.bind_eq_some_iff.mp downwards
  refine ⟨_, _, _, _, _, formed, ?_, by decide, by decide, h₁, h₂, _, run₁, run₂, returned₁,
    returned₂⟩
  simp only [List.forall_mem_cons]
  exact ⟨first, fourth, third, by simp⟩

end

end EBBLib.MemMgrPrimSimple
