import EBBLib.Stdio.Prints
import Mathlib.Data.Nat.Digits.Lemmas

/-!
# `printi` of the bare `stdio.c`

`printi` builds the text of an integer in `print_buf`: forwards from the start for zero, and
backwards from the end otherwise. Nothing in it bounds the number of characters, so the buffer
here goes on on both sides and keeps the indices that were written to. `vfprintf` has a fault
for a text that leaves the buffer.

`val` is a `long long`, `-val` and the conversion to `unsigned long long` are modulo `2 ^ 64`.
-/

namespace EBBLib.Stdio

open StartInfo (CStr ascii wrapInt)

/-- `PRINT_BUF_LEN`. -/
def printBufLen : Int := 80

/-- The part of `print_buf` that was written to: the index of its first byte, and its bytes. -/
structure PrintBuf where
  first : Int
  bytes : List UInt8
deriving DecidableEq, Repr

namespace PrintBuf

/-- `*--s = c`, for `s` at the first byte. -/
def before (b : PrintBuf) (c : UInt8) : PrintBuf := ⟨b.first - 1, c :: b.bytes⟩

/-- `print_buf[pos++] = c`. -/
def after (b : PrintBuf) (c : UInt8) : PrintBuf := ⟨b.first, b.bytes ++ [c]⟩

/-- Every index written to is one of the buffer. -/
def InBounds (b : PrintBuf) : Prop := 0 ≤ b.first ∧ b.first + b.bytes.length ≤ printBufLen

instance (b : PrintBuf) : Decidable b.InBounds := inferInstanceAs (Decidable (_ ∧ _))

end PrintBuf

/-- The character of a digit. -/
def digitChar (cbase : UInt8) (rem : Nat) : UInt8 :=
  if rem ≥ 10 then UInt8.ofNat (rem + (cbase.toNat - 10)) else UInt8.ofNat rem + ch '0'

/-- `while (uval != 0)`: the buffer and `pos`. The fuel bounds the digits. -/
def digitLoop (base : Nat) (cbase : UInt8) : Nat → Nat → PrintBuf → Int → PrintBuf × Int
  | 0, _, b, pos => (b, pos)
  | fuel + 1, uval, b, pos =>
      if uval ≠ 0 then
        digitLoop base cbase fuel (uval / base) (b.before (digitChar cbase (uval % base))) (pos + 1)
      else (b, pos)

/-- `for(; precision > pos; pos++)`: `precision - pos` zeroes. -/
def zeroLoop : Nat → PrintBuf → PrintBuf
  | 0, b => b
  | n + 1, b => zeroLoop n (b.before (ch '0'))

/-- What is put in front of the digits. -/
def putPrefix (base : Nat) (neg : Bool) (flags : Flags) (cbase : UInt8) (b : PrintBuf) :
    PrintBuf :=
  if base = 10 then
    if neg then b.before (ch '-')
    else if flags.positiveSign then b.before (ch '+')
    else if flags.noSignSpace then b.before (ch ' ')
    else b
  else if base = 16 then (b.before (cbase - ch 'A' + ch 'X')).before (ch '0')
  else b

/-- `print_buf` when `prints` is called. -/
def printBuf (val : Int) (base : Nat) (sign precision : Int) (flags : Flags) (cbase : UInt8) :
    PrintBuf :=
  if val = 0 then
    let b : PrintBuf := ⟨0, []⟩
    let b := if flags.noSignSpace then b.after (ch ' ') else b
    if precision = 0 then b.after 0 else (b.after (ch '0')).after 0
  else
    let neg : Bool := sign = 1 ∧ base = 10 ∧ val < 0
    let uval := ((if neg then -val else val) % 2 ^ 64).toNat
    let b : PrintBuf := ⟨printBufLen - 1, [0]⟩
    let (b, pos) := digitLoop base cbase 64 uval b 0
    putPrefix base neg flags cbase (zeroLoop (precision - pos).toNat b)

/-- `printi`: the bytes in the stream then, and the result. -/
def printi (val : Int) (base : Nat) (sign width precision : Int) (flags : Flags) (cbase : UInt8)
    (stream : List UInt8) : Option Out :=
  prints (printBuf val base sign precision flags cbase).bytes width (-1) flags stream

/-! ### The text -/

/-- The buffer that holds a text and its NUL at its end. -/
def PrintBuf.ending (text : List UInt8) : PrintBuf :=
  ⟨printBufLen - 1 - text.length, text ++ [0]⟩

theorem PrintBuf.ending_before (text : List UInt8) (c : UInt8) :
    (ending text).before c = ending (c :: text) := by
  simp only [ending, before, List.length_cons, List.cons_append]
  congr 1
  omega

/-- The digits, the last one last. -/
def digitsText (base : Nat) (cbase : UInt8) (uval : Nat) : List UInt8 :=
  (Nat.digits base uval).reverse.map (digitChar cbase)

theorem length_digitsText (base : Nat) (cbase : UInt8) (uval : Nat) :
    (digitsText base cbase uval).length = (Nat.digits base uval).length := by
  simp [digitsText]

theorem digitsText_step (base : Nat) (cbase : UInt8) (uval : Nat) (two : 2 ≤ base)
    (more : uval ≠ 0) :
    digitsText base cbase uval =
      digitsText base cbase (uval / base) ++ [digitChar cbase (uval % base)] := by
  rw [digitsText, Nat.digits_def' two (Nat.pos_of_ne_zero more)]
  simp [digitsText]

theorem digitLoop_eq (base : Nat) (cbase : UInt8) (two : 2 ≤ base) (fuel uval : Nat)
    (text : List UInt8) (pos : Int) (enough : uval < base ^ fuel) :
    digitLoop base cbase fuel uval (.ending text) pos =
      (.ending (digitsText base cbase uval ++ text),
        pos + (digitsText base cbase uval).length) := by
  induction fuel generalizing uval text pos with
  | zero =>
      have none : uval = 0 := by simpa using enough
      simp [digitLoop, none, digitsText]
  | succ fuel ih =>
      by_cases more : uval = 0
      · simp [digitLoop, more, digitsText]
      · have less : uval / base < base ^ fuel :=
          Nat.div_lt_of_lt_mul (by rwa [← Nat.pow_succ'])
        simp only [digitLoop, ne_eq, more, not_false_eq_true, if_true, PrintBuf.ending_before]
        rw [ih _ _ _ less, digitsText_step base cbase uval two more]
        simp
        omega

theorem zeroLoop_eq (n : Nat) (text : List UInt8) :
    zeroLoop n (.ending text) = .ending (List.replicate n (ch '0') ++ text) := by
  induction n generalizing text with
  | zero => rfl
  | succ n ih =>
      rw [zeroLoop, PrintBuf.ending_before, ih, List.replicate_succ']
      simp

/-- The sign or the radix prefix. -/
def prefixOf (base : Nat) (neg : Bool) (flags : Flags) (cbase : UInt8) : List UInt8 :=
  if base = 10 then
    if neg then [ch '-']
    else if flags.positiveSign then [ch '+']
    else if flags.noSignSpace then [ch ' ']
    else []
  else if base = 16 then [ch '0', cbase - ch 'A' + ch 'X']
  else []

theorem putPrefix_eq (base : Nat) (neg : Bool) (flags : Flags) (cbase : UInt8)
    (text : List UInt8) :
    putPrefix base neg flags cbase (.ending text) =
      .ending (prefixOf base neg flags cbase ++ text) := by
  unfold putPrefix prefixOf
  split_ifs <;> simp [PrintBuf.ending_before]

/-- `neg`. -/
def isNeg (val : Int) (base : Nat) (sign : Int) : Bool := sign = 1 ∧ base = 10 ∧ val < 0

/-- The first value of `uval` in the loop. -/
def uvalOf (val : Int) (base : Nat) (sign : Int) : Nat :=
  ((if isNeg val base sign then -val else val) % 2 ^ 64).toNat

/-- The text of an integer. -/
def textOf (val : Int) (base : Nat) (sign precision : Int) (flags : Flags) (cbase : UInt8) :
    List UInt8 :=
  if val = 0 then
    (if flags.noSignSpace then [ch ' '] else []) ++ if precision = 0 then [] else [ch '0']
  else
    let digits := digitsText base cbase (uvalOf val base sign)
    prefixOf base (isNeg val base sign) flags cbase ++
      List.replicate (precision - digits.length).toNat (ch '0') ++ digits

theorem printBuf_zero (base : Nat) (sign precision : Int) (flags : Flags) (cbase : UInt8) :
    printBuf 0 base sign precision flags cbase =
      ⟨0, textOf 0 base sign precision flags cbase ++ [0]⟩ := by
  simp only [printBuf, textOf, if_true, PrintBuf.after]
  split_ifs <;> rfl

theorem printBuf_nonzero (val : Int) (base : Nat) (sign precision : Int) (flags : Flags)
    (cbase : UInt8) (two : 2 ≤ base) (nonzero : val ≠ 0) :
    printBuf val base sign precision flags cbase =
      .ending (textOf val base sign precision flags cbase) := by
  have enough : uvalOf val base sign < base ^ 64 :=
    calc uvalOf val base sign < 2 ^ 64 := by
          rw [uvalOf]
          omega
      _ ≤ base ^ 64 := Nat.pow_le_pow_left two 64
  have looped := digitLoop_eq base cbase two 64 (uvalOf val base sign) [] 0 enough
  rw [printBuf, if_neg nonzero, textOf, if_neg nonzero]
  refine (congrArg (fun found : PrintBuf × Int => putPrefix base (isNeg val base sign) flags cbase
    (zeroLoop (precision - found.2).toNat found.1)) looped).trans ?_
  simp only [zeroLoop_eq, putPrefix_eq, List.append_nil, Int.zero_add, List.append_assoc]

/-! ### The bounds of the buffer -/

/-- The digits of a value of 64 bits. -/
theorem length_digitsText_le (val : Int) (base : Nat) (sign : Int) (cbase : UInt8)
    (known : base = 10 ∨ base = 16) :
    (digitsText base cbase (uvalOf val base sign)).length ≤ 20 := by
  have small : uvalOf val base sign < 2 ^ 64 := by
    rw [uvalOf]
    omega
  rw [length_digitsText, Nat.digits_length_le_iff (by omega)]
  rcases known with rfl | rfl <;> omega

theorem digitChar_ne_zero {cbase : UInt8} (letter : cbase = ch 'a' ∨ cbase = ch 'A') {d : Nat}
    (digit : d < 16) : digitChar cbase d ≠ 0 := by
  rcases letter with rfl | rfl <;> revert d <;> decide

theorem length_prefixOf_le (base : Nat) (neg : Bool) (flags : Flags) (cbase : UInt8) :
    (prefixOf base neg flags cbase).length ≤ 2 := by
  unfold prefixOf
  split_ifs <;> simp

theorem prefixOf_nulFree (base : Nat) (neg : Bool) (flags : Flags) {cbase : UInt8}
    (letter : cbase = ch 'a' ∨ cbase = ch 'A') : 0 ∉ prefixOf base neg flags cbase := by
  unfold prefixOf
  rcases letter with rfl | rfl <;> split_ifs <;> decide

/-- The NUL of a text is the one at its end. -/
theorem textOf_nulFree (val : Int) (base : Nat) (sign precision : Int) (flags : Flags)
    {cbase : UInt8} (known : base = 10 ∨ base = 16) (letter : cbase = ch 'a' ∨ cbase = ch 'A') :
    0 ∉ textOf val base sign precision flags cbase := by
  unfold textOf
  split
  · split_ifs <;> decide
  · simp only [List.mem_append, List.mem_replicate, not_or]
    refine ⟨⟨prefixOf_nulFree _ _ _ letter, fun zero => absurd zero.2 (by decide)⟩, ?_⟩
    intro mem
    obtain ⟨d, digit, same⟩ := List.mem_map.mp mem
    have below : d < base := Nat.digits_lt_base (by omega) (List.mem_reverse.mp digit)
    exact digitChar_ne_zero letter (by omega) same

/-- `prints` gets a text that ends with its only NUL. -/
theorem printBuf_bytes (val : Int) (base : Nat) (sign precision : Int) (flags : Flags)
    (cbase : UInt8) (two : 2 ≤ base) :
    (printBuf val base sign precision flags cbase).bytes =
      textOf val base sign precision flags cbase ++ [0] := by
  by_cases zero : val = 0
  · rw [zero, printBuf_zero]
  · rw [printBuf_nonzero val base sign precision flags cbase two zero, PrintBuf.ending]

theorem printi_eq (val : Int) (base : Nat) (sign width precision : Int) (flags : Flags)
    (cbase : UInt8) (stream : List UInt8) (known : base = 10 ∨ base = 16)
    (letter : cbase = ch 'a' ∨ cbase = ch 'A') :
    printi val base sign width precision flags cbase stream =
      some (Out.putAll ⟨stream, 0⟩ (pad flags
        (paddingOf (textOf val base sign precision flags cbase).length width (-1)).toNat
        ((textOf val base sign precision flags cbase).take (2 ^ 32 - 1)))) := by
  rw [printi, printBuf_bytes val base sign precision flags cbase (by omega)]
  exact prints_eq _ [] width (-1) flags stream
    (textOf_nulFree val base sign precision flags known letter) (by omega) (by omega)

/-- A text that is shorter than the greatest `int`. -/
theorem printi_short (val : Int) (base : Nat) (sign width precision : Int) (flags : Flags)
    (cbase : UInt8) (stream : List UInt8) (known : base = 10 ∨ base = 16)
    (letter : cbase = ch 'a' ∨ cbase = ch 'A') (wide' : width < 2 ^ 31)
    (short : (textOf val base sign precision flags cbase).length < 2 ^ 31) :
    (printi val base sign width precision flags cbase stream).map Out.stream =
      some (stream ++ pad flags
        (width.toNat - (textOf val base sign precision flags cbase).length)
        (textOf val base sign precision flags cbase)) := by
  have zero : wrapInt 0 = 0 := rfl
  rw [printi_eq val base sign width precision flags cbase stream known letter,
    padding_whole _ width wide' short, List.take_of_length_le (by omega), ← zero, Out.putAll_eq]
  rfl

theorem inBounds_ending (text : List UInt8) :
    (PrintBuf.ending text).InBounds ↔ text.length ≤ 79 := by
  simp only [PrintBuf.InBounds, PrintBuf.ending, printBufLen, List.length_append,
    List.length_singleton]
  omega

/-- The text of an integer fits into `print_buf` with its NUL. The digits alone always do. -/
def Room (val : Int) (base : Nat) (sign precision : Int) (flags : Flags) (cbase : UInt8) : Prop :=
  val = 0 ∨ precision + (prefixOf base (isNeg val base sign) flags cbase).length ≤ 79

theorem printBuf_inBounds_iff (val : Int) (base : Nat) (sign precision : Int) (flags : Flags)
    (cbase : UInt8) (known : base = 10 ∨ base = 16) :
    (printBuf val base sign precision flags cbase).InBounds ↔
      Room val base sign precision flags cbase := by
  rw [Room]
  by_cases zero : val = 0
  · subst zero
    rw [printBuf_zero]
    simp only [PrintBuf.InBounds, printBufLen, textOf, true_or, iff_true]
    split_ifs <;> simp
  · have few := length_digitsText_le val base sign cbase known
    have short := length_prefixOf_le base (isNeg val base sign) flags cbase
    rw [printBuf_nonzero _ base sign precision flags cbase (by omega) zero, inBounds_ending,
      textOf, if_neg zero]
    simp only [zero, false_or, List.length_append, List.length_replicate]
    omega

/-- `printi` stays in its buffer exactly where the precision and the prefix leave room for the
NUL. The digits alone always fit. -/
theorem printi_inBounds_iff (val : Int64) (base : Nat) (sign width precision : Int)
    (flags : Flags) (cbase : UInt8) (stream : List UInt8) (known : base = 10 ∨ base = 16)
    (letter : cbase = ch 'a' ∨ cbase = ch 'A') :
    ((printBuf val.toInt base sign precision flags cbase).InBounds ∧
      (printi val.toInt base sign width precision flags cbase stream).isSome) ↔
      val = 0 ∨
        precision + (prefixOf base (isNeg val.toInt base sign) flags cbase).length ≤ 79 := by
  have zero : val.toInt = 0 ↔ val = 0 := by rw [← Int64.toInt_inj, Int64.toInt_zero]
  rw [printi_eq val.toInt base sign width precision flags cbase stream known letter,
    printBuf_inBounds_iff _ _ _ _ _ _ known, Room, zero]
  simp only [Option.isSome_some, and_true]

/-- Three digits for a small number. -/
theorem printi_inBounds_iff_sample :
    ((printBuf (Int64.toInt (-5)) 10 1 3 Flags.none (ch 'a')).InBounds ∧
      (printi (Int64.toInt (-5)) 10 1 0 3 Flags.none (ch 'a') []).isSome) ↔
      (-5 : Int64) = 0 ∨
        3 + (prefixOf 10 (isNeg (Int64.toInt (-5)) 10 1) Flags.none (ch 'a')).length ≤ (79 : Int) :=
  printi_inBounds_iff (-5) 10 1 0 3 Flags.none (ch 'a') [] (.inl rfl) (.inl rfl)

/-- A precision of 100 writes in front of the buffer. -/
theorem exists_not_inBounds :
    ∃ (val : Int64) (precision : Int),
      (printBuf val.toInt 10 1 precision Flags.none (ch 'a')).first = -21 ∧
        ¬ (printBuf val.toInt 10 1 precision Flags.none (ch 'a')).InBounds := by
  have first : (printBuf (Int64.toInt 1) 10 1 100 Flags.none (ch 'a')).first = -21 := by
    decide +kernel
  refine ⟨1, 100, first, fun inside => ?_⟩
  have := inside.1
  omega

end EBBLib.Stdio
