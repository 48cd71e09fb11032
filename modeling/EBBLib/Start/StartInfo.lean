import Mathlib.Data.List.Basic
import Mathlib.Logic.Function.Basic
import Mathlib.Tactic.Ring

/-!
# Start information: the encoder and the decoder

`startinfo` packs the argument count, the arguments without the `-ebbos` options and
the environment into one buffer, and `initArgvAndEnv` unpacks a copy of it on the
other side. They share only the byte format.

Buffers are bounded: a write behind the end of the buffer of `startinfo` and a read
behind the end of the copy give `none`, as a failing assertion does. The pointer
arrays of the decoder record the indices written to, so that a write outside an
array stays visible.
-/

namespace EBBLib.StartInfo

/-- The bytes of a string before its NUL. -/
structure CStr where
  bytes : List UInt8
  nulFree : 0 ∉ bytes

/-- The characters of a literal. -/
def ascii (s : String) : List UInt8 := s.toList.map fun c => UInt8.ofNat c.toNat

/-- `sizeof(int)`. -/
def intSize : Nat := 4

/-- The value of an `int` after an arithmetic operation. -/
def wrapInt (x : Int) : Int := (x + 2 ^ 31) % 2 ^ 32 - 2 ^ 31

theorem wrapInt_add (x y : Int) : wrapInt (wrapInt x + y) = wrapInt (x + y) := by
  simp only [wrapInt]
  omega

/-- What an `int` can hold does not wrap. -/
theorem wrapInt_of_fits {x : Int} (lo : -2 ^ 31 ≤ x) (hi : x < 2 ^ 31) : wrapInt x = x := by
  simp only [wrapInt]
  omega

theorem wrapInt_fits (x : Int) : -2 ^ 31 ≤ wrapInt x ∧ wrapInt x < 2 ^ 31 := by
  simp only [wrapInt]
  omega

/-- The bytes of an `int` in memory. -/
def intBytes (v : Int) : List UInt8 :=
  let u := (v % 2 ^ 32).toNat
  [UInt8.ofNat u, UInt8.ofNat (u / 2 ^ 8), UInt8.ofNat (u / 2 ^ 16), UInt8.ofNat (u / 2 ^ 24)]

/-- `*((int *)data)`. -/
def readInt : List UInt8 → Option Int
  | a :: b :: c :: d :: _ =>
      some (wrapInt (a.toNat + 2 ^ 8 * b.toNat + 2 ^ 16 * c.toNat + 2 ^ 24 * d.toNat))
  | _ => none

/-! ### The encoder -/

/-- `ebbos_arg`. -/
def ebbosArg : List UInt8 := ascii "-ebbos"

/-- `ebbos_cores`. -/
def ebbosCores : List UInt8 := ascii "-ebbos_cores"

/-- `strncmp(a, p, strlen(p)) == 0`. -/
def startsWith (p : List UInt8) (a : CStr) : Bool := p.isPrefixOf a.bytes

/-- The arguments that `parse_ebbos_arg` handles. The value after `-ebbos_cores` is
read in any case. -/
def parseEbbosArg (a : CStr) : Nat := if startsWith ebbosCores a then 2 else 1

/-- The loops that add up the sizes. -/
def addSizes (s : Int) : List CStr → Int
  | [] => s
  | a :: as => addSizes (wrapInt (wrapInt (s + a.bytes.length) + 1)) as

/-- A write at the end of what the buffer of `cap` bytes holds. -/
def put (cap : Int) (cur bytes : List UInt8) : Option (List UInt8) :=
  if (cur.length + bytes.length : Int) ≤ cap then some (cur ++ bytes) else none

/-- The argument loop: the bytes so far, `s` and `*argcl`. -/
def copyArgs (cap : Int) : List CStr → List UInt8 → Int → Int → Option (List UInt8 × Int × Int)
  | [], cur, s, argcl => some (cur, s, argcl)
  | a :: rest, cur, s, argcl =>
      if startsWith ebbosArg a then
        let s := wrapInt (s - (a.bytes.length + 1))
        if parseEbbosArg a = 2 then
          match rest with
          | [] => none
          | v :: rest => copyArgs cap rest cur (wrapInt (s - (v.bytes.length + 1))) (argcl - 2)
        else copyArgs cap rest cur s (argcl - 1)
      else (put cap cur (a.bytes ++ [0])).bind fun cur => copyArgs cap rest cur s argcl

/-- The environment loop. -/
def copyEnviron (cap : Int) : List CStr → List UInt8 → Option (List UInt8)
  | [], cur => some cur
  | e :: rest, cur => (put cap cur (e.bytes ++ [0])).bind (copyEnviron cap rest)

/-- `startinfo`: the bytes at `*addr` and `*size`. The count at the front is written
through `argcl`, so its final value is put there when the loops are done. -/
def startinfo (argv environ : List CStr) : Option (List UInt8 × Int) :=
  let s := addSizes (addSizes intSize argv) environ
  -- `malloc` gets a negative `s` as a size that it cannot satisfy.
  if 0 ≤ s ∧ argv.length < 2 ^ 31 then
    let argc : Int := argv.length
    (put s [] (intBytes argc)).bind fun cur =>
      (copyArgs s argv cur s argc).bind fun (cur, s', argcl) =>
        (copyEnviron s environ cur).bind fun cur =>
          if s' = cur.length then some (intBytes argcl ++ cur.drop intSize, s') else none
  else none

/-! ### The decoder -/

/-- An element of a pointer array: null, or an offset into the copied bytes. -/
inductive Ptr where
  | null
  | offset (p : Nat)
deriving DecidableEq, Repr

/-- A pointer array of `cap` elements from `EBBPrimMalloc`, with the indices that were
written to, newest first. An element that was not written to is `none`. -/
structure PtrArray where
  cap : Int
  elem : Int → Option Ptr
  written : List Int

namespace PtrArray

/-- A fresh array. -/
def malloc (cap : Int) : PtrArray := { cap, elem := fun _ => none, written := [] }

/-- `a[i] = p`. -/
def set (a : PtrArray) (i : Int) (p : Ptr) : PtrArray :=
  { a with elem := Function.update a.elem i (some p), written := i :: a.written }

/-- Every write was inside the array. -/
def InBounds (a : PtrArray) : Prop := ∀ i ∈ a.written, 0 ≤ i ∧ i < a.cap

end PtrArray

/-- `while (*data != '\\0') data++` from position `p`. The fuel bounds the steps. -/
def strEnd (si : List UInt8) : Nat → Nat → Option Nat
  | 0, _ => none
  | fuel + 1, p =>
      match si[p]? with
      | none => none
      | some c => if c = 0 then some p else strEnd si fuel (p + 1)

/-- Store `n` string addresses from index `i` on: the position behind the last string
and the array. -/
def fillPtrs (si : List UInt8) : Nat → Int → Nat → PtrArray → Option (Nat × PtrArray)
  | 0, _, data, a => some (data, a)
  | n + 1, i, data, a =>
      (strEnd si (si.length + 1) data).bind fun e =>
        fillPtrs si n (i + 1) (e + 1) (a.set i (.offset data))

/-- `while (s < self->sisize)`: count the strings from `edata` on. The positions `s` and
`edata` are the same. -/
def countStrs (si : List UInt8) (sisize : Int) : Nat → Nat → Int → Option (Nat × Int)
  | 0, _, _ => none
  | fuel + 1, s, environc =>
      if (s : Int) < sisize then
        (strEnd si (si.length + 1) s).bind fun e => countStrs si sisize fuel (e + 1) (environc + 1)
      else some (s, environc)

/-- The fields of `L1Prim` that `initArgvAndEnv` sets. -/
structure L1Prim where
  argc : Int
  argv : PtrArray
  environc : Int
  environ : PtrArray

/-- `initArgvAndEnv` on start information of `sisize` bytes. -/
def initArgvAndEnv (si : List UInt8) (sisize : Int) : Option L1Prim :=
  if (intSize : Int) ≤ sisize then
    (readInt si).bind fun argc =>
      (fillPtrs si argc.toNat 0 intSize (.malloc argc)).bind fun (data, argv) =>
        (countStrs si sisize (si.length + 1) data 0).bind fun (s, environc) =>
          let environ := PtrArray.malloc environc
          let environc := environc - 1
          (fillPtrs si (environc + 1).toNat 0 data environ).bind fun (_, environ) =>
            let i := environc + 1
            let environ := environ.set i .null
            if s = sisize ∧ i - 1 = environc then some { argc, argv, environc, environ } else none
  else some { argc := 0, argv := .malloc 0, environc := 0, environ := .malloc 0 }

/-- The copy of `L1Prim_MsgHandler_startMH`, and the decoder on it. -/
def startMH (info : List UInt8 × Int) : Option L1Prim :=
  let (startinfo, sisize) := info
  initArgvAndEnv (startinfo.take sisize.toNat) sisize

end EBBLib.StartInfo
