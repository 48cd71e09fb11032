import EBBLib.Stdio.Zero

/-!
# Texts that are the ones of C

For each kind of conversion, the condition under which `vfprintf` writes its text.
-/

namespace EBBLib.Stdio

open StartInfo (CStr ascii wrapInt)

theorem number_asC {c : Conv} {base : Nat} {v : Int} (number : c.own.number = some (base, v))
    (wellFormed : c.WellFormed) (room : c.HasRoom) :
    c.written = c.output ↔ c.DigitsAsC base v ∧ c.PadsAsC ∨ v = 0 ∧ c.MadeUp base := by
  by_cases digits : c.DigitsAsC base v
  · rw [sameParts_iff number wellFormed room digits]
    refine ⟨fun pads => .inl ⟨digits, pads⟩, ?_⟩
    rintro (⟨-, pads⟩ | ⟨rfl, made⟩)
    · exact pads
    · rw [Conv.DigitsAsC, if_pos rfl] at digits
      rw [Conv.MadeUp, if_pos digits.1] at made
      obtain ⟨⟨k, places, more⟩, -⟩ := made
      have := digits.2 k places
      omega
  rw [or_iff_right fun both => digits both.1]
  by_cases zero : v = 0
  · subst zero
    rw [and_iff_right rfl, Conv.MadeUp]
    by_cases plain : zeroFlag base ∈ c.flags
    · rw [if_neg (not_not.mpr plain)]
      rcases number_base number with rfl | rfl
      · have never := zero_plus number room rfl plain
        split <;> exact iff_of_false never (by simp)
      · split
        · rename_i nothing
          rw [blank_alone_iff number wellFormed room rfl plain nothing]
          simp
        · rename_i digit
          by_cases behind : .minus ∈ c.flags ∨ c.width.amount < 0
          · refine iff_of_false
              (blank_behind number wellFormed room rfl plain behind digit) ?_
            rintro ⟨-, right, two, -⟩
            rcases behind with left | negative
            · exact right left
            · omega
          · obtain ⟨right, positive⟩ := not_or.mp behind
            rw [blank_in_front_iff number wellFormed room rfl plain right (by omega) digit]
            simp [right]
    · rw [if_pos plain]
      obtain ⟨k, places, more⟩ : ∃ k, c.places = some k ∧ 2 ≤ k := by
        rw [Conv.DigitsAsC, if_pos rfl] at digits
        by_contra none
        exact digits ⟨plain, fun k places => by
          by_contra many
          exact none ⟨k, places, by omega⟩⟩
      rw [zero_digits_iff number wellFormed room plain places more,
        and_iff_right (⟨k, places, more⟩ : ∃ k, c.places = some k ∧ 2 ≤ k)]
  · rw [Conv.DigitsAsC, if_neg zero] at digits
    obtain ⟨hex, noPound⟩ := Classical.not_imp.mp digits
    exact iff_of_false (written_ne_of_noPound number room zero hex noPound) fun both => zero both.1

theorem putAll_stream (stream cs : List UInt8) :
    (Out.putAll ⟨stream, 0⟩ cs).stream = stream ++ cs := by
  have zero : wrapInt 0 = 0 := rfl
  rw [← zero, Out.putAll_eq]

/-- What a call of `prints` alone writes. -/
theorem written_prints {c : Conv} (s junk : List UInt8) (precision : Int) (nulFree : 0 ∉ s)
    (lo : -2 ^ 31 ≤ precision) (hi : precision < 2 ^ 31)
    (call : ∀ flags width, c.own.call flags width c.precisionValue [] [] =
      printed (prints (s ++ 0 :: junk) width precision flags []) []) :
    c.written = pad (flagsOf c.flags c.own.length)
      (paddingOf s.length c.width.value precision).toNat
      (s.take (precision % 2 ^ 32).toNat) := by
  rw [Conv.written, call, prints_eq s junk _ _ _ _ nulFree lo hi]
  exact putAll_stream [] _

/-- A character has no padding here, and a NUL is not written. -/
theorem char_asC {c : Conv} {v : Int32} (char : c.own = .c v) (wellFormed : c.WellFormed) :
    c.written = c.output ↔ UInt8.ofInt v.toInt ≠ 0 ∧ c.width.amount.natAbs ≤ 1 := by
  have width := value_of_fits wellFormed.width
  have body : c.own.mark c.flags ++ c.own.body c.places = [UInt8.ofInt v.toInt] := by
    rw [char]
    rfl
  by_cases nul : UInt8.ofInt v.toInt = 0
  · -- The NUL ends the string, and C writes it.
    refine iff_of_false (fun same => ?_) fun both => both.1 nul
    have written := written_prints (c := c) [] [0] 1 List.not_mem_nil (by decide) (by decide)
      fun flags width => by rw [char, Own.call, nul]; rfl
    have mem : (0 : UInt8) ∈ c.output := by
      have shown : (0 : UInt8) ∈ c.own.mark c.flags ++ c.own.body c.places := by simp [body, nul]
      have split := List.mem_append.mp shown
      rw [output_eq]
      split_ifs <;> simp only [List.mem_append] <;> tauto
    have noNul : (0 : UInt8) ≠ padByte (flagsOf c.flags c.own.length) := by
      rw [padByte]
      split <;> decide
    rw [← same, written, pad] at mem
    split_ifs at mem <;> simp [noNul] at mem
  · have written := written_prints (c := c) [UInt8.ofInt v.toInt] [] 1
      (by simpa using fun same => nul same.symm) (by decide) (by decide) fun flags width => by
        rw [char]
        rfl
    have none : (paddingOf 1 c.width.value 1).toNat = 0 := by
      have one : lenOf 1 1 = 1 := by decide
      simp only [paddingOf, capped, one]
      split_ifs <;> omega
    have size : c.size = 1 := by rw [Conv.size, body]; rfl
    have shown : [UInt8.ofInt v.toInt].take ((1 : Int) % 2 ^ 32).toNat =
        c.own.mark c.flags ++ c.own.body c.places := by
      rw [body]
      rfl
    rw [List.length_singleton, none, shown] at written
    rw [padded_iff written (by omega), size]
    simp only [nul, ne_eq, not_false_eq_true, true_and, true_or, and_true]
    omega

theorem padding_short (length : Nat) (width precision : Int) (wide' : width < 2 ^ 31)
    (short : length < 2 ^ 31) (hi : precision < 2 ^ 31) :
    (paddingOf length width precision).toNat =
      (if precision = -1 then width else min width precision).toNat - length := by
  by_cases unbounded : precision = -1
  · rw [unbounded, if_pos rfl, padding_whole length width wide' short]
  rw [if_neg unbounded]
  by_cases wide : 0 ≤ width ∧ 0 ≤ precision
  · by_cases last : precision = 2 ^ 31 - 1
    · rw [padding_unbounded length width precision wide.1 wide' (.inr last),
        StartInfo.wrapInt_of_fits (by omega) (by omega)]
      split <;> omega
    · exact padding_bounded length width precision wide.1 wide.2 (by omega)
  · have none : ¬ capped width precision > 0 := by
      rw [capped]
      split <;> omega
    rw [paddingOf, if_neg none, capped]
    split <;> omega

/-- A string has its padding if the precision does not cut the width. -/
theorem string_asC {c : Conv} {address : UInt64} {target : CStr}
    (string : c.own = .s address target) (wellFormed : c.WellFormed) :
    c.written = c.output ↔
      c.width.amount.natAbs ≤ c.size ∨
        0 < c.width.amount ∧ .zero ∉ c.flags ∧
          (c.precisionValue = -1 ∨ c.width.amount ≤ c.precisionValue) := by
  have width := value_of_fits wellFormed.width
  have wide' := (value_fits c.width).2
  have places := places_eq wellFormed
  obtain ⟨lo, hi⟩ : -2 ^ 31 ≤ c.precisionValue ∧ c.precisionValue < 2 ^ 31 := by
    rw [Conv.precisionValue]
    cases c.precision with
    | none => exact ⟨by decide, by decide⟩
    | some n => exact value_fits n
  obtain ⟨str, pointed⟩ : ∃ str, str = if address ≠ 0 then target.bytes else ascii "(null)" :=
    ⟨_, rfl⟩
  have nulFree : 0 ∉ str := by
    rw [pointed]
    split
    · exact target.nulFree
    · decide
  have short : str.length < 2 ^ 31 := by
    rw [pointed]
    split
    · exact wellFormed.string address target string
    · decide
  have written := written_prints (c := c) str [] c.precisionValue nulFree lo hi
    fun flags width => by
      rw [string, pointed, Own.call]
      split <;> rfl
  have shown : str.take (c.precisionValue % 2 ^ 32).toNat =
      c.own.mark c.flags ++ c.own.body c.places := by
    rw [string, places]
    simp only [Own.mark, Own.body, ← pointed, List.nil_append]
    split
    · exact List.take_of_length_le (by omega)
    · rw [show c.precisionValue % 2 ^ 32 = c.precisionValue by omega]
      rfl
  have size : c.size = min (c.precisionValue % 2 ^ 32).toNat str.length := by
    rw [Conv.size, ← shown, List.length_take]
  have chars : c.own.isInteger = false := by rw [string]; rfl
  rw [width] at wide'
  rw [shown, width, padding_short _ _ _ wide' short hi] at written
  rw [padded_iff written (by split <;> omega), size]
  simp only [chars, Bool.false_eq_true, false_and, and_false, or_false]
  by_cases zero : .zero ∈ c.flags
  · simp only [zero, not_true_eq_false, or_false, false_and, and_false]
    split <;> omega
  · simp only [zero, not_false_eq_true, or_true, and_true, true_and]
    split <;> omega

/-- The text is the one of C exactly under the conditions for its conversion. -/
theorem written_eq_output_iff {c : Conv} (known : c.own.letter ≠ 'u')
    (wellFormed : c.WellFormed) (room : c.HasRoom) : c.written = c.output ↔ c.AsC := by
  constructor
  · intro same
    exact
      { number := fun base v number => (number_asC number wellFormed room).mp same
        char := fun v char => (char_asC char wellFormed).mp same
        string := fun address target string => (string_asC string wellFormed).mp same }
  · intro asC
    cases number : c.own.number with
    | some called => exact (number_asC number wellFormed room).mpr (asC.number _ _ number)
    | none =>
        cases own : c.own with
        | c v => exact (char_asC own wellFormed).mpr (asC.char v own)
        | s address target =>
            exact (string_asC own wellFormed).mpr (asC.string address target own)
        | u => exact absurd (congrArg Own.letter own) known
        | d | i | x | X | p =>
            rw [own] at number
            cases number

end EBBLib.Stdio
