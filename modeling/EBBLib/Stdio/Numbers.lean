import EBBLib.Stdio.Arguments

/-!
# The text of a printed number

The text that `printi` builds is a prefix and digits. `prints` pads the two as one.
-/

namespace EBBLib.Stdio

open StartInfo (CStr ascii wrapInt)

/-- The text in front of the digits. -/
def leadOf (v : Int) (base : Nat) (flags : Flags) (cbase : UInt8) : List UInt8 :=
  if v = 0 then if flags.noSignSpace then [ch ' '] else []
  else prefixOf base (base = 10 ∧ v < 0) flags cbase

/-- The digits, with the zeroes that the precision asks for. There are none for zero. -/
def digitsOf (v : Int) (base : Nat) (precision : Int) (cbase : UInt8) : List UInt8 :=
  if v = 0 then if precision = 0 then [] else [ch '0']
  else
    let digits := digitsText base cbase v.natAbs
    List.replicate (precision - digits.length).toNat (ch '0') ++ digits

theorem length_leadOf {v : Int} {base : Nat} (fs : List FlagChar) (length : Length)
    (cbase : UInt8) (known : base = 10 ∨ base = 16) :
    (leadOf v base (flagsOf fs length) cbase).length = prefixLen v base fs := by
  unfold leadOf prefixLen prefixOf
  rcases known with rfl | rfl
  · by_cases zero : v = 0
    · simp only [zero, if_true, flagsOf, decide_eq_true_eq]
      split_ifs <;> rfl
    · by_cases neg : v < 0
      · simp [zero, neg]
      · by_cases plus : .plus ∈ fs
        · simp [zero, neg, plus, flagsOf]
        · by_cases space : .space ∈ fs <;> simp [zero, neg, plus, space, flagsOf]
  · by_cases zero : v = 0
    · simp only [zero, if_true, flagsOf, decide_eq_true_eq]
      split_ifs <;> rfl
    · simp [zero]

section Number

variable {c : Conv} {base : Nat} {v : Int} (number : c.own.number = some (base, v))

include number

theorem uvalOf_number : uvalOf (wrapLong v) base 1 = v.natAbs := by
  rcases number_range number with ⟨rfl, lo, hi⟩ | ⟨rfl, lo, hi⟩
  · rw [wrapLong_of_fits lo hi, uvalOf]
    by_cases neg : v < 0
    · simp only [isNeg, neg, and_self, decide_true, if_true]
      omega
    · simp only [isNeg, neg, and_false, decide_false, Bool.false_eq_true, if_false]
      omega
  · simp only [uvalOf, isNeg, wrapLong, Nat.reduceEqDiff, false_and, and_false, decide_false,
      Bool.false_eq_true, if_false]
    omega

theorem isNeg_number : isNeg (wrapLong v) base 1 = decide (base = 10 ∧ v < 0) := by
  rcases number_range number with ⟨rfl, lo, hi⟩ | ⟨rfl, lo, hi⟩
  · simp [wrapLong_of_fits lo hi, isNeg]
  · simp [isNeg]

theorem textOf_number (precision : Int) (flags : Flags) (cbase : UInt8) :
    textOf (wrapLong v) base 1 precision flags cbase =
      leadOf v base flags cbase ++ digitsOf v base precision cbase := by
  unfold textOf leadOf digitsOf
  by_cases zero : v = 0
  · rw [if_pos ((wrapLong_eq_zero number).mpr zero), if_pos zero, if_pos zero]
  · simp only [mt (wrapLong_eq_zero number).mp zero, zero, if_false, uvalOf_number number,
      isNeg_number number, List.append_assoc]

theorem length_text_le (room : c.HasRoom) :
    (leadOf v base (flagsOf c.flags c.own.length) c.own.cbase ++
      digitsOf v base c.precisionValue c.own.cbase).length ≤ 79 := by
  by_cases zero : v = 0
  · rw [leadOf, digitsOf, if_pos zero, if_pos zero]
    split_ifs <;> simp
  · have inside := (printBuf_inBounds_iff _ _ _ _ _ _ (number_base number)).mpr
      ((room_iff number).mpr room)
    have two : 2 ≤ base := by
      have := number_base number
      omega
    rw [printBuf_nonzero _ _ _ _ _ _ two (mt (wrapLong_eq_zero number).mp zero),
      textOf_number number] at inside
    exact (inBounds_ending _).mp inside

/-- What is written for a number: its prefix and its digits, padded. -/
theorem written_number (room : c.HasRoom) :
    c.written = pad (flagsOf c.flags c.own.length)
      (c.width.value.toNat - (leadOf v base (flagsOf c.flags c.own.length) c.own.cbase ++
        digitsOf v base c.precisionValue c.own.cbase).length)
      (leadOf v base (flagsOf c.flags c.own.length) c.own.cbase ++
        digitsOf v base c.precisionValue c.own.cbase) := by
  have known := number_base number
  have short := length_text_le number room
  have out := printi_short (wrapLong v) base 1 c.width.value c.precisionValue
    (flagsOf c.flags c.own.length) c.own.cbase [] known (cbase_letter c.own)
    (value_fits c.width).2 (by rw [textOf_number number]; omega)
  rw [textOf_number number] at out
  rw [Conv.written, call_number number, printInt_ok known ((room_iff number).mpr room)]
  obtain ⟨o, found, same⟩ := Option.map_eq_some_iff.mp out
  rw [found]
  exact same

end Number

end EBBLib.Stdio
