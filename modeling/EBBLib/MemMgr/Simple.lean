import EBBLib.Library.Word
import EBBLib.Types
import Mathlib.Logic.Function.Basic

/-!
# The first-fit allocator of `MemMgrPrimSimple.c`

A `Bumper` is the word before and the word after each block: 63 bits of size and
one used bit. The arena is byte addressed and only its aligned words matter.
Addresses and sizes are 64-bit words that wrap, and a store into the size field
keeps its low 63 bits.

`Heap.log` lists the addresses stored to, newest first. It is a history of the
stores that the source performs and no function reads it.
-/

namespace EBBLib.MemMgrPrimSimple

/-- `sizeof(uintptr_t)`, which is also `sizeof(Bumper)`. -/
def wordSize : Nat := 8

/-- `sizeof(EBBMemMgrPrimSimple)`: the function table, the root, `mem` and `end`. -/
def repSize : Nat := 32

/-- `MAX_BLOCK_SIZE`. -/
def maxBlockSize : Nat := 2 ^ 63 - 1

/-- A header or a footer word. -/
structure Bumper where
  size : BitVec 63
  used : Bool
deriving DecidableEq, Repr

/-- The size field read as an integer. -/
def Bumper.bytes (b : Bumper) : Nat := b.size.toNat

/-- Words by byte address, and the addresses stored to so far. -/
structure Heap where
  word : Nat → Bumper
  log : List Nat

namespace Heap

/-- `p->raw = b`. -/
def store (h : Heap) (p : Nat) (b : Bumper) : Heap :=
  { word := Function.update h.word p b, log := p :: h.log }

/-- `p->used = u`. -/
def setUsed (h : Heap) (p : Nat) (u : Bool) : Heap :=
  h.store p { h.word p with used := u }

/-- `p->size = n`. -/
def setSize (h : Heap) (p n : Nat) : Heap :=
  h.store p { h.word p with size := BitVec.ofNat 63 n }

/-- The size field at `p`. -/
def size (h : Heap) (p : Nat) : Nat := (h.word p).bytes

end Heap

/-- The fields of the representative that the allocator uses. -/
structure Rep where
  mem : Nat
  arenaEnd : Nat
deriving DecidableEq, Repr

/-- Round up to a multiple of the word size, as `alloc` and `free` both do. -/
def roundUp (size : Nat) : Nat :=
  if size % wordSize ≠ 0 then Word64.add size (wordSize - size % wordSize) else size

/-- `init_rep`. The result is `none` when the assertion on the block size fails. -/
def initRep (self arenaEnd : Nat) (h : Heap) : Option (Rep × Heap) :=
  let mem := Word64.add self repSize
  let mem :=
    if mem % wordSize ≠ 0 then Word64.add mem (wordSize - mem % wordSize) else mem
  let prologueHdr := mem
  let prologueFtr := Word64.add prologueHdr wordSize
  let h := h.setUsed prologueHdr true
  let h := h.setSize prologueHdr (2 * wordSize)
  let h := h.store prologueFtr (h.word prologueHdr)
  let epilogHdr := Word64.sub arenaEnd (2 * wordSize)
  let epilogFtr := Word64.add epilogHdr wordSize
  let h := h.setUsed epilogHdr true
  let h := h.setSize epilogHdr (2 * wordSize)
  let h := h.store epilogFtr (h.word epilogHdr)
  let firstBlockHdr := Word64.add prologueFtr wordSize
  let h := h.setUsed firstBlockHdr false
  let h := h.setSize firstBlockHdr (Word64.sub epilogHdr firstBlockHdr)
  let firstBlockFtr := Word64.sub (Word64.add firstBlockHdr (h.size firstBlockHdr)) wordSize
  let h := h.store firstBlockFtr (h.word firstBlockHdr)
  if Word64.sub epilogHdr firstBlockHdr ≤ maxBlockSize then
    some ({ mem, arenaEnd }, h)
  else none

/-- The search loop of `alloc`. The fuel bounds the number of iterations; `none`
means that the loop is still running when the fuel is used up. -/
def findFree (h : Heap) (arenaEnd size : Nat) : Nat → Nat → Option Nat
  | 0, _ => none
  | fuel + 1, hdr =>
      if hdr < arenaEnd ∧ ((h.word hdr).used ∨ h.size hdr < size) then
        findFree h arenaEnd size fuel (Word64.add hdr (h.size hdr))
      else some hdr

/-- The size that `alloc` looks for: the request, header and footer, rounded up. -/
def adjust (size : Nat) : Nat := roundUp (Word64.add size (2 * wordSize))

/-- The writes of `alloc` once the search has stopped at the free block `hdr`. -/
def carve (h : Heap) (hdr size : Nat) : Heap :=
  let h := h.setUsed hdr true
  let nextFtr := Word64.sub (Word64.add hdr (h.size hdr)) wordSize
  let h := h.setSize nextFtr (Word64.sub (h.size nextFtr) size)
  let h := h.setSize hdr size
  let ftr := Word64.sub (Word64.add hdr (h.size hdr)) wordSize
  let h := h.store ftr (h.word hdr)
  let nextHdr := Word64.add ftr wordSize
  h.store nextHdr (h.word nextFtr)

/-- `EBBMemMgrPrimSimple_alloc`: the return code, `*mem` and the heap. -/
def alloc (fuel : Nat) (self : Rep) (h : Heap) (size : Nat) : Option (EBBRC × Nat × Heap) :=
  let size := adjust size
  (findFree h self.arenaEnd size fuel self.mem).map fun hdr =>
    if self.arenaEnd ≤ hdr then (EBBRC.outOfResources, 0, h)
    else (EBBRC.ok, Word64.add hdr wordSize, carve h hdr size)

/-- `EBBMemMgrPrimSimple_free`. The result is `none` when the size assertion fails. -/
def free (h : Heap) (size mem : Nat) : Option (EBBRC × Heap) :=
  let hdr := Word64.sub mem wordSize
  let ftr := Word64.sub (Word64.add hdr (h.size hdr)) wordSize
  let newsize := h.size hdr
  let size := roundUp size
  if size = Word64.sub (h.size hdr) (2 * wordSize) then
    let leftFtr := Word64.sub hdr wordSize
    let (hdr, newsize) :=
      if !(h.word leftFtr).used then
        let hdr := Word64.add (Word64.sub leftFtr (h.size leftFtr)) wordSize
        (hdr, Word64.add newsize (h.size hdr))
      else (hdr, newsize)
    let rightHdr := Word64.add ftr wordSize
    let (ftr, newsize) :=
      if !(h.word rightHdr).used then
        let ftr := Word64.sub (Word64.add rightHdr (h.size rightHdr)) wordSize
        (ftr, Word64.add newsize (h.size ftr))
      else (ftr, newsize)
    let h := h.setSize hdr newsize
    let h := h.setUsed hdr false
    let h := h.store ftr (h.word hdr)
    some (EBBRC.ok, h)
  else none

end EBBLib.MemMgrPrimSimple
