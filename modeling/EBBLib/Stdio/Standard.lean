import EBBLib.Stdio.Numbers

/-!
# Where the text is the one of C

`prints` puts its padding in front of the whole text or behind it, and a precision bounds the
width there. `printi` has its own text for zero. So `vfprintf` writes for a conversion what C has
for it under conditions that are stated here.
-/

namespace EBBLib.Stdio

open StartInfo (CStr ascii wrapInt)

/-! ### The conditions -/

/-- The flag that does something else for a zero: `printi` puts no plus in front of it, and the
blank in every base. -/
def zeroFlag (base : Nat) : FlagChar := if base = 10 then .plus else .space

namespace Conv

/-- The length of the text in C without its padding. -/
def size (c : Conv) : Nat := (c.own.mark c.flags ++ c.own.body c.places).length

/-- No padding is asked for, or blanks in front or behind, or zeroes for digits that have nothing
in front. -/
def PadsAsC (c : Conv) : Prop :=
  c.width.amount.natAbs ≤ c.size ∨
    0 < c.width.amount ∧
      (.zero ∉ c.flags ∨ .minus ∉ c.flags ∧ c.places = none ∧ c.own.mark c.flags = [])

/-- The prefix and the digits are the ones of C. A number of base 16 that is not zero always has
its prefix, and a zero has no more than one digit. -/
def DigitsAsC (c : Conv) (base : Nat) (v : Int) : Prop :=
  if v = 0 then zeroFlag base ∉ c.flags ∧ ∀ k, c.places = some k → k ≤ 1
  else c.own.letter = 'x' ∨ c.own.letter = 'X' → .pound ∈ c.flags

/-- The prefix and the digits of a zero are not the ones of C, and the padding happens to make up
for that. -/
def MadeUp (c : Conv) (base : Nat) : Prop :=
  if zeroFlag base ∉ c.flags then
    (∃ k, c.places = some k ∧ 2 ≤ k) ∧ .zero ∈ c.flags ∧ c.width.amount = c.size ∧
      (.minus ∈ c.flags ∨ c.own.mark c.flags = [])
  else if c.places = some 0 then
    base = 16 ∧ (c.width.amount = -1 ∨
      0 < c.width.amount ∧ (.zero ∉ c.flags ∨ c.width.amount = 1))
  else
    base = 16 ∧ .minus ∉ c.flags ∧ 2 ≤ c.width.amount ∧ (∀ k, c.places = some k → k = 1) ∧
      (.zero ∉ c.flags ∨ c.places = some 1 ∧ c.width.amount = 2)

/-- The text is the one of C. A precision, which is one for a character, must not be less than the
width if there is something to pad, and a character is not the NUL. -/
structure AsC (c : Conv) : Prop where
  number : ∀ base v, c.own.number = some (base, v) →
    c.DigitsAsC base v ∧ c.PadsAsC ∨ v = 0 ∧ c.MadeUp base
  char : ∀ v, c.own = .c v → UInt8.ofInt v.toInt ≠ 0 ∧ c.width.amount.natAbs ≤ 1
  string : ∀ address target, c.own = .s address target →
    c.width.amount.natAbs ≤ c.size ∨
      0 < c.width.amount ∧ .zero ∉ c.flags ∧
        (c.precisionValue = -1 ∨ c.width.amount ≤ c.precisionValue)

end Conv

/-! ### Numbers that fit into an int -/

theorem value_of_fits {n : Number} (fits : n.amount < 2 ^ 31) : n.value = n.amount := by
  cases n with
  | digits ds =>
      simp only [Number.amount] at fits
      exact StartInfo.wrapInt_of_fits (by omega) fits
  | star v => rfl

theorem places_eq {c : Conv} (wellFormed : c.WellFormed) :
    c.places = if c.precisionValue < 0 then none else some c.precisionValue.toNat := by
  unfold Conv.places Conv.precisionValue
  cases precision : c.precision with
  | none => rfl
  | some n =>
      have same := value_of_fits (wellFormed.precision n precision)
      simp [same]

/-! ### Padding -/

/-- The texts in front of the digits. -/
def marks : List (List UInt8) :=
  [[], ascii "-", ascii "+", ascii " ", ascii "0x", ascii "0X"]

theorem mark_mem (own : Own) (fs : List FlagChar) : own.mark fs ∈ marks := by
  cases own with
  | d | i | x | X | p =>
      simp only [Own.mark]
      split_ifs <;> decide
  | u | c | s => exact List.mem_cons_self

/-- Zeroes change places with no prefix. -/
theorem zeroes_mark {mark : List UInt8} (mem : mark ∈ marks) (n : Nat) (body : List UInt8) :
    List.replicate (n + 1) (ch '0') ++ (mark ++ body) =
      mark ++ List.replicate (n + 1) (ch '0') ++ body ↔ mark = [] := by
  have heads : ∀ m ∈ marks, m = [] ∨ m.head? ≠ some (ch '0') ∨
      ∃ x ∈ [ch 'x', ch 'X'], m = [ch '0', x] := by decide
  have letter : ∀ x ∈ [ch 'x', ch 'X'], x ≠ ch '0' := by decide +kernel
  constructor
  · intro same
    rcases heads mark mem with none | other | ⟨x, hex, rfl⟩
    · exact none
    · cases mark with
      | nil => rfl
      | cons a mark =>
          have first := (List.cons.inj same).1
          exact absurd (congrArg some first.symm) other
    · have later := (List.cons.inj same).2
      cases n <;> exact absurd (List.cons.inj later).1.symm (letter x hex)
  · rintro rfl
    simp

theorem output_eq (c : Conv) :
    c.output =
      if .minus ∈ c.flags ∨ c.width.amount < 0 then
        c.own.mark c.flags ++ c.own.body c.places ++
          List.replicate (c.width.amount.natAbs - c.size) (ch ' ')
      else if .zero ∈ c.flags ∧ c.own.isInteger ∧ c.places = none then
        c.own.mark c.flags ++ List.replicate (c.width.amount.natAbs - c.size) (ch '0') ++
          c.own.body c.places
      else
        List.replicate (c.width.amount.natAbs - c.size) (ch ' ') ++
          (c.own.mark c.flags ++ c.own.body c.places) := rfl

theorem length_output (c : Conv) :
    c.output.length = c.width.amount.natAbs - c.size + c.size := by
  rw [output_eq, Conv.size]
  split_ifs <;> simp only [List.length_append, List.length_replicate] <;> omega

/-- A text that is padded by the code, and the same text padded by C. -/
theorem padded_iff {c : Conv} {m : Nat}
    (written : c.written =
      pad (flagsOf c.flags c.own.length) m (c.own.mark c.flags ++ c.own.body c.places))
    (forward : 0 < m → 0 < c.width.amount) :
    c.written = c.output ↔
      m = c.width.amount.natAbs - c.size ∧
        (m = 0 ∨ .zero ∉ c.flags ∨
          .minus ∉ c.flags ∧ c.own.isInteger ∧ c.places = none ∧ c.own.mark c.flags = []) := by
  by_cases count : m = c.width.amount.natAbs - c.size
  · rw [written, output_eq, ← count]
    simp only [true_and]
    cases m with
    | zero => by_cases left : .minus ∈ c.flags <;> simp [pad]
    | succ n =>
        have ahead : ¬ c.width.amount < 0 := by
          have := forward n.succ_pos
          omega
        have other : ch '0' ≠ ch ' ' := by decide
        by_cases left : .minus ∈ c.flags <;> by_cases zero : .zero ∈ c.flags
        · simp [pad, padByte, flagsOf, left, zero, other]
        · simp [pad, padByte, flagsOf, left, zero]
        · by_cases spread : c.own.isInteger = true ∧ c.places = none
          · have moved := zeroes_mark (mark_mem c.own c.flags) n (c.own.body c.places)
            simpa [pad, padByte, flagsOf, left, zero, ahead, spread] using moved
          · have none : ¬ (c.own.isInteger = true ∧ c.places = none ∧
                c.own.mark c.flags = []) := fun both => spread ⟨both.1, both.2.1⟩
            simp [pad, padByte, flagsOf, left, zero, ahead, spread, none, other]
        · simp [pad, padByte, flagsOf, left, zero, ahead]
  · refine iff_of_false (fun same => count ?_) fun both => count both.1
    have lengths := congrArg List.length same
    rw [length_output, written, length_pad, ← Conv.size] at lengths
    omega

/-! ### The parts of a number -/

theorem digitChar_eq {cbase : UInt8} (letter : cbase = ch 'a' ∨ cbase = ch 'A') {d : Nat}
    (small : d < 16) : digitChar cbase d = digit (cbase = ch 'A') d := by
  rcases letter with rfl | rfl <;> revert d <;> decide

/-- The numeral of C, in the digits of `printi`. -/
theorem numeral_eq {base : Nat} {cbase : UInt8} (known : base = 10 ∨ base = 16)
    (letter : cbase = ch 'a' ∨ cbase = ch 'A') (n least : Nat) :
    numeral base (cbase = ch 'A') n least =
      List.replicate (least - (digitsText base cbase n).length) (ch '0') ++
        digitsText base cbase n := by
  have same : (Nat.digits base n).reverse.map (digit (cbase = ch 'A')) =
      digitsText base cbase n := by
    refine List.map_congr_left fun d mem => (digitChar_eq letter ?_).symm
    have below := Nat.digits_lt_base (by omega) (List.mem_reverse.mp mem)
    omega
  rw [numeral, same]

section Number

variable {c : Conv} {base : Nat} {v : Int} (number : c.own.number = some (base, v))

include number

theorem isInteger_number : c.own.isInteger = true := by
  cases own : c.own with
  | c | s =>
      rw [own] at number
      cases number
  | d | i | u | x | X | p => rfl

theorem body_number (precision : Option Nat) :
    c.own.body precision = numeral base (c.own.cbase = ch 'A') v.natAbs (precision.getD 1) := by
  have lower : ch 'a' ≠ ch 'A' := by decide
  cases own : c.own with
  | d | i | x | X | p =>
      rw [own] at number
      cases number
      simp [Own.body, Own.cbase, lower]
  | u | c | s =>
      rw [own] at number
      cases number

theorem digits_eq_body (wellFormed : c.WellFormed)
    (few : v = 0 → ∀ k, c.places = some k → k ≤ 1) :
    digitsOf v base c.precisionValue c.own.cbase = c.own.body c.places := by
  have known := number_base number
  have places := places_eq wellFormed
  rw [body_number number, numeral_eq known (cbase_letter c.own), digitsOf]
  by_cases zero : v = 0
  · have none : digitsText base c.own.cbase (Int.natAbs 0) = [] := by simp [digitsText]
    rw [if_pos zero, zero, none]
    by_cases negative : c.precisionValue < 0
    · have other : c.precisionValue ≠ 0 := by omega
      simp [places, negative, other]
    · have most := few zero c.precisionValue.toNat (by rw [places, if_neg negative])
      rw [places, if_neg negative]
      by_cases nothing : c.precisionValue = 0
      · simp [nothing]
      · have one : c.precisionValue = 1 := by omega
        simp [one]
  · have one : 0 < (digitsText base c.own.cbase v.natAbs).length := by
      rw [length_digitsText]
      exact List.length_pos_of_ne_nil (Nat.digits_ne_nil_iff_ne_zero.mpr (by omega))
    rw [if_neg zero, places]
    split
    · simp only [Option.getD_none]
      congr 2
      omega
    · simp only [Option.getD_some]
      congr 2
      omega

theorem lead_eq_mark (plain : v = 0 → zeroFlag base ∉ c.flags)
    (radix : v ≠ 0 → c.own.letter = 'x' ∨ c.own.letter = 'X' → .pound ∈ c.flags) :
    leadOf v base (flagsOf c.flags c.own.length) c.own.cbase = c.own.mark c.flags := by
  cases own : c.own with
  | d length v' | i length v' =>
      rw [own] at number
      cases number
      by_cases zero : signedVal length v' = 0
      · have noPlus : .plus ∉ c.flags := plain zero
        simp [leadOf, Own.mark, zero, noPlus, flagsOf]
        rfl
      · by_cases neg : signedVal length v' < 0
        · simp [leadOf, prefixOf, Own.mark, zero, neg]
          rfl
        · simp [leadOf, prefixOf, Own.mark, zero, neg, flagsOf]
          rfl
  | x length v' =>
      have text : [ch '0', ch 'a' - ch 'A' + ch 'X'] = ascii "0x" := by decide
      rw [own] at number radix
      cases number
      by_cases zero : unsignedVal length v' = 0
      · have noSpace : .space ∉ c.flags := plain (by omega)
        simp [leadOf, Own.mark, zero, noSpace, flagsOf]
      · have pound : .pound ∈ c.flags := radix (by omega) (by simp [Own.letter])
        simpa [leadOf, prefixOf, Own.mark, zero, pound, Own.cbase] using text
  | X length v' =>
      have text : [ch '0', ch 'A' - ch 'A' + ch 'X'] = ascii "0X" := by decide
      rw [own] at number radix
      cases number
      by_cases zero : unsignedVal length v' = 0
      · have noSpace : .space ∉ c.flags := plain (by omega)
        simp [leadOf, Own.mark, zero, noSpace, flagsOf]
      · have pound : .pound ∈ c.flags := radix (by omega) (by simp [Own.letter])
        simpa [leadOf, prefixOf, Own.mark, zero, pound, Own.cbase] using text
  | p address target =>
      have text : [ch '0', ch 'a' - ch 'A' + ch 'X'] = ascii "0x" := by decide
      rw [own] at number
      cases number
      by_cases zero : address.toNat = 0
      · have noSpace : .space ∉ c.flags := plain (by omega)
        simp [leadOf, Own.mark, zero, noSpace, flagsOf]
      · simpa [leadOf, prefixOf, Own.mark, zero, Own.cbase] using text
  | u | c | s =>
      rw [own] at number
      cases number

/-- The same prefix and digits. -/
theorem sameParts_iff (wellFormed : c.WellFormed) (room : c.HasRoom)
    (digits : c.DigitsAsC base v) : c.written = c.output ↔ c.PadsAsC := by
  have width := value_of_fits wellFormed.width
  have lead := lead_eq_mark number (fun zero => by
    rw [Conv.DigitsAsC, if_pos zero] at digits
    exact digits.1) fun nonzero => by
      rw [Conv.DigitsAsC, if_neg nonzero] at digits
      exact digits
  have body := digits_eq_body number wellFormed fun zero => by
    rw [Conv.DigitsAsC, if_pos zero] at digits
    exact digits.2
  have written := written_number number room
  rw [lead, body, width, ← Conv.size] at written
  rw [padded_iff written (by omega), Conv.PadsAsC, isInteger_number number]
  constructor
  · rintro ⟨count, none | other⟩
    · exact .inl (by omega)
    · by_cases short : c.width.amount.natAbs ≤ c.size
      · exact .inl short
      · exact .inr ⟨by omega, by simpa using other⟩
  · rintro (short | ⟨positive, other⟩)
    · exact ⟨by omega, .inl (by omega)⟩
    · exact ⟨by omega, .inr (by simpa using other)⟩

/-! ### Another prefix -/

theorem mem_output {x : UInt8} (mem : x ∈ c.output) :
    x = ch ' ' ∨ x = ch '0' ∨ x ∈ c.own.mark c.flags ∨
      x ∈ digitsText base c.own.cbase v.natAbs := by
  have body : ∀ x ∈ c.own.body c.places,
      x = ch '0' ∨ x ∈ digitsText base c.own.cbase v.natAbs := by
    intro x mem
    rw [body_number number, numeral_eq (number_base number) (cbase_letter c.own)] at mem
    exact (List.mem_append.mp mem).imp List.eq_of_mem_replicate id
  rw [output_eq] at mem
  split_ifs at mem <;>
    (simp only [List.mem_append, List.mem_replicate] at mem
     have := body x
     tauto)

theorem mem_written (room : c.HasRoom) {x : UInt8} :
    x ∈ leadOf v base (flagsOf c.flags c.own.length) c.own.cbase → x ∈ c.written := by
  intro mem
  rw [written_number number room, pad]
  split_ifs <;> simp [mem]

/-- A prefix that is not asked for: its letter is nowhere in the text of C. -/
theorem written_ne_of_noPound (room : c.HasRoom) (nonzero : v ≠ 0)
    (hex : c.own.letter = 'x' ∨ c.own.letter = 'X') (noPound : .pound ∉ c.flags) :
    c.written ≠ c.output := by
  have sixteen : base = 16 := by
    cases own : c.own <;> rw [own] at number hex <;> cases number <;>
      first | rfl | simp [Own.letter] at hex
  have bare : c.own.mark c.flags = [] := by
    cases own : c.own <;> rw [own] at hex <;> simp [Own.letter] at hex <;>
      simp [Own.mark, noPound]
  have letters : ∀ cbase ∈ [ch 'a', ch 'A'], cbase - ch 'A' + ch 'X' ≠ ch ' ' ∧
      cbase - ch 'A' + ch 'X' ≠ ch '0' ∧
      ∀ d : Fin 16, digitChar cbase d ≠ cbase - ch 'A' + ch 'X' := by decide +kernel
  obtain ⟨noBlank, noZero, noDigit⟩ := letters c.own.cbase (by
    have := cbase_letter c.own
    simpa using this)
  intro same
  have prefixed : c.own.cbase - ch 'A' + ch 'X' ∈ c.written := by
    refine mem_written number room ?_
    simp [leadOf, nonzero, prefixOf, sixteen]
  rw [same] at prefixed
  rcases mem_output number prefixed with blank | zero | marked | digit
  · exact noBlank blank
  · exact noZero zero
  · rw [bare] at marked
    cases marked
  · obtain ⟨d, mem, equal⟩ := List.mem_map.mp digit
    have below := Nat.digits_lt_base (by omega) (List.mem_reverse.mp mem)
    exact noDigit ⟨d, by omega⟩ equal

end Number

end EBBLib.Stdio
