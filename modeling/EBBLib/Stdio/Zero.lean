import EBBLib.Stdio.Standard

/-!
# The text of a zero

`printi` has one digit at most for zero, no plus, and the blank of its flag in base 16 as well.
Where that is not the text of C, padding can still make up for it.
-/

namespace EBBLib.Stdio

open StartInfo (CStr ascii wrapInt)

/-- Blanks in front of a blank, or behind it. -/
theorem pad_blank_iff (flags : Flags) (m n : Nat) :
    pad flags m [ch ' '] = List.replicate n (ch ' ') ↔
      n = m + 1 ∧ (m = 0 ∨ flags.padWithZeroes = false) := by
  have other : ch '0' ≠ ch ' ' := by decide
  have blanks : (∀ x ∈ pad flags m [ch ' '], x = ch ' ') ↔
      m = 0 ∨ flags.padWithZeroes = false := by
    rw [pad, padByte]
    by_cases left : flags.justLeft <;> cases flags.padWithZeroes <;>
      simp [left, other, or_imp]
  rw [List.eq_replicate_iff, length_pad, blanks]
  exact and_congr_left' eq_comm

section Zero

variable {c : Conv} {base : Nat} (number : c.own.number = some (base, 0))

/-- The digit of a zero. -/
def zeroDigit (precision : Int) : List UInt8 := if precision = 0 then [] else [ch '0']

include number

theorem written_zero (room : c.HasRoom) :
    c.written = pad (flagsOf c.flags c.own.length)
      (c.width.value.toNat - ((if .space ∈ c.flags then [ch ' '] else []) ++
        zeroDigit c.precisionValue).length)
      ((if .space ∈ c.flags then [ch ' '] else []) ++ zeroDigit c.precisionValue) := by
  have written := written_number number room
  have lead : leadOf 0 base (flagsOf c.flags c.own.length) c.own.cbase =
      if .space ∈ c.flags then [ch ' '] else [] := by simp [leadOf, flagsOf]
  have digits : digitsOf 0 base c.precisionValue c.own.cbase = zeroDigit c.precisionValue := rfl
  rwa [lead, digits] at written

theorem body_zero : c.own.body c.places = List.replicate (c.places.getD 1) (ch '0') := by
  rw [body_number number, numeral_eq (number_base number) (cbase_letter c.own)]
  simp [digitsText]

theorem mark_zero :
    c.own.mark c.flags =
      if base = 10 then
        if .plus ∈ c.flags then ascii "+" else if .space ∈ c.flags then ascii " " else []
      else [] := by
  cases own : c.own with
  | d length v | i length v =>
      rw [own] at number
      simp only [Own.number, Option.some.injEq, Prod.mk.injEq] at number
      obtain ⟨rfl, zero⟩ := number
      simp [Own.mark, zero]
  | x length v | X length v =>
      rw [own] at number
      simp only [Own.number, Option.some.injEq, Prod.mk.injEq] at number
      obtain ⟨rfl, zero⟩ := number
      have zero : unsignedVal length v = 0 := by omega
      simp [Own.mark, zero]
  | p address target =>
      rw [own] at number
      simp only [Own.number, Option.some.injEq, Prod.mk.injEq] at number
      obtain ⟨rfl, zero⟩ := number
      have zero : address.toNat = 0 := by omega
      simp [Own.mark, zero]
  | u | c | s =>
      rw [own] at number
      cases number

/-- The plus of C is nowhere in the text. -/
theorem zero_plus (room : c.HasRoom) (decimal : base = 10) (plus : .plus ∈ c.flags) :
    c.written ≠ c.output := by
  have other : ch '+' ≠ ch ' ' ∧ ch '+' ≠ ch '0' := by decide
  have marked : ch '+' ∈ c.output := by
    have mark := mark_zero number
    rw [if_pos decimal, if_pos plus] at mark
    rw [output_eq, mark]
    split_ifs <;> simp [ascii, ch]
  intro same
  rw [← same, written_zero number room, pad, padByte, zeroDigit] at marked
  split_ifs at marked <;> simp [other] at marked

/-- Two digits or more in C, and one here: zeroes that are padded with make up for them. -/
theorem zero_digits_iff (wellFormed : c.WellFormed) (room : c.HasRoom)
    (plain : zeroFlag base ∉ c.flags) {k : Nat} (places : c.places = some k) (more : 2 ≤ k) :
    c.written = c.output ↔ .zero ∈ c.flags ∧ c.width.amount = c.size ∧
      (.minus ∈ c.flags ∨ c.own.mark c.flags = []) := by
  have width := value_of_fits wellFormed.width
  have blank : ch '0' ≠ ch ' ' := by decide
  have precision : c.precisionValue ≠ 0 := by
    have found := places_eq wellFormed
    rw [places] at found
    split at found
    · cases found
    · have := Option.some.inj found
      omega
  have lead := lead_eq_mark number (fun _ => plain) fun nonzero => absurd rfl nonzero
  have size : c.size = (c.own.mark c.flags).length + k := by
    rw [Conv.size, body_zero number, places]
    simp
  have written := written_number number room
  rw [lead, width, digitsOf, if_pos rfl, if_neg precision, List.length_append,
    List.length_singleton] at written
  have unspread : ¬ (.zero ∈ c.flags ∧ c.own.isInteger ∧ c.places = none) := by simp [places]
  have noZero : (c.own.mark c.flags).count (ch '0') = 0 := by
    rw [mark_zero number]
    split_ifs <;> decide
  -- The zeroes in the text: one and the padding here, and `k` in C.
  have here : c.written.count (ch '0') = 1 + if .zero ∈ c.flags then
      c.width.amount.toNat - ((c.own.mark c.flags).length + 1) else 0 := by
    rw [written, pad, padByte]
    by_cases left : .minus ∈ c.flags <;> by_cases zero : .zero ∈ c.flags <;>
      simp [flagsOf, left, zero, noZero, List.count_replicate, blank.symm, Nat.add_comm]
  have there : c.output.count (ch '0') = k := by
    rw [output_eq, if_neg unspread, body_zero number, places]
    split_ifs <;> simp [noZero, List.count_replicate, blank.symm]
  -- Where the width is the length of the text in C, nothing is padded there.
  have exact (wide : c.width.amount = c.size) :
      c.output = c.own.mark c.flags ++ List.replicate k (ch '0') := by
    rw [output_eq, body_zero number, places, wide]
    split_ifs <;> simp
  obtain ⟨j, rfl⟩ : ∃ j, k = j + 2 := ⟨k - 2, by omega⟩
  constructor
  · intro same
    rw [same, there] at here
    by_cases zero : .zero ∈ c.flags
    · rw [if_pos zero] at here
      have wide : c.width.amount = c.size := by omega
      refine ⟨zero, wide, ?_⟩
      by_contra neither
      obtain ⟨right, marked⟩ := not_or.mp neither
      have mark : c.own.mark c.flags = [ch ' '] := by
        rw [mark_zero number] at marked ⊢
        unfold zeroFlag at plain
        split_ifs at marked plain ⊢ <;> first | rfl | exact absurd rfl marked
      have count : c.width.amount.toNat - ((c.own.mark c.flags).length + 1) = j + 1 := by omega
      rw [written, exact wide, count, mark, pad, padByte] at same
      simp only [flagsOf, right, zero, decide_false, decide_true, if_true, Bool.false_eq_true,
        if_false, List.replicate_succ, List.cons_append] at same
      exact blank (List.cons.inj same).1
    · rw [if_neg zero] at here
      omega
  · rintro ⟨zero, wide, side⟩
    have count : c.width.amount.toNat - ((c.own.mark c.flags).length + 1) = j + 1 := by omega
    rw [written, exact wide, count, pad, padByte]
    by_cases left : .minus ∈ c.flags
    · simp [flagsOf, left, zero, List.replicate_succ]
    · have bare : c.own.mark c.flags = [] := side.resolve_left left
      simp [flagsOf, left, zero, bare, List.replicate_succ' (n := j + 1)]

section Blank

variable (wellFormed : c.WellFormed) (room : c.HasRoom) (hex : base = 16)
  (space : .space ∈ c.flags)

include wellFormed room hex space

omit hex in
/-- A blank in front of a zero of base 16, where C has none. -/
theorem written_blank :
    c.written = pad (flagsOf c.flags c.own.length)
      (c.width.amount.toNat - (1 + (zeroDigit c.precisionValue).length))
      (ch ' ' :: zeroDigit c.precisionValue) := by
  have written := written_zero number room
  rw [value_of_fits wellFormed.width, if_pos space] at written
  simpa [Nat.add_comm] using written

omit wellFormed room space in
theorem output_blank :
    c.output =
      if .minus ∈ c.flags ∨ c.width.amount < 0 then
        List.replicate (c.places.getD 1) (ch '0') ++
          List.replicate (c.width.amount.natAbs - c.places.getD 1) (ch ' ')
      else if .zero ∈ c.flags ∧ c.places = none then
        List.replicate (c.width.amount.natAbs - c.places.getD 1) (ch '0') ++
          List.replicate (c.places.getD 1) (ch '0')
      else
        List.replicate (c.width.amount.natAbs - c.places.getD 1) (ch ' ') ++
          List.replicate (c.places.getD 1) (ch '0') := by
  have bare : c.own.mark c.flags = [] := by
    rw [mark_zero number, if_neg (by omega)]
  have size : c.size = c.places.getD 1 := by simp [Conv.size, bare, body_zero number]
  rw [output_eq, size, bare, body_zero number, isInteger_number number]
  simp

/-- With the precision 0 there are only blanks in C. -/
theorem blank_alone_iff (nothing : c.places = some 0) : c.written = c.output ↔
    c.width.amount = -1 ∨ 0 < c.width.amount ∧ (.zero ∉ c.flags ∨ c.width.amount = 1) := by
  have precision : c.precisionValue = 0 := by
    have found := places_eq wellFormed
    rw [nothing] at found
    split at found
    · cases found
    · have := Option.some.inj found
      omega
  have output : c.output = List.replicate c.width.amount.natAbs (ch ' ') := by
    rw [output_blank number hex, nothing]
    split_ifs <;> simp_all
  rw [written_blank number wellFormed room space, output, zeroDigit, if_pos precision,
    pad_blank_iff]
  simp only [List.length_nil, flagsOf, decide_eq_false_iff_not]
  constructor
  · rintro ⟨count, none | zero⟩
    · by_cases positive : 0 < c.width.amount
      · exact .inr ⟨positive, .inr (by omega)⟩
      · exact .inl (by omega)
    · by_cases positive : 0 < c.width.amount
      · exact .inr ⟨positive, .inl zero⟩
      · exact .inl (by omega)
  · rintro (one | ⟨positive, zero | one⟩)
    · exact ⟨by omega, .inl (by omega)⟩
    · exact ⟨by omega, .inr zero⟩
    · exact ⟨by omega, .inl (by omega)⟩

/-- Where the text is padded behind, it begins with the blank here, and with a zero in C. -/
theorem blank_behind (behind : .minus ∈ c.flags ∨ c.width.amount < 0)
    (digit : c.places ≠ some 0) : c.written ≠ c.output := by
  have blank : ch ' ' ≠ ch '0' := by decide
  have front : ∃ t, c.written = ch ' ' :: t := by
    rw [written_blank number wellFormed room space, pad]
    rcases behind with left | negative
    · exact ⟨_, by simp [flagsOf, left]; rfl⟩
    · have none : c.width.amount.toNat - (1 + (zeroDigit c.precisionValue).length) = 0 := by
        omega
      by_cases left : .minus ∈ c.flags <;> exact ⟨_, by simp [flagsOf, left, none]; rfl⟩
  obtain ⟨j, digits⟩ : ∃ j, c.places.getD 1 = j + 1 := by
    cases places : c.places with
    | none => exact ⟨0, rfl⟩
    | some k =>
        have nonzero : k ≠ 0 := fun zero => digit (by rw [places, zero])
        exact ⟨k - 1, by simp only [Option.getD_some]; omega⟩
  obtain ⟨t, front⟩ := front
  intro same
  rw [front, output_blank number hex, if_pos behind, digits, List.replicate_succ,
    List.cons_append] at same
  exact blank (List.cons.inj same).1

/-- Where it is padded in front, the blank has to be one of the blanks of C. -/
theorem blank_in_front_iff (right : .minus ∉ c.flags) (positive : 0 ≤ c.width.amount)
    (digit : c.places ≠ some 0) :
    c.written = c.output ↔
      2 ≤ c.width.amount ∧ (∀ k, c.places = some k → k = 1) ∧
        (.zero ∉ c.flags ∨ c.places = some 1 ∧ c.width.amount = 2) := by
  have blank : ch ' ' ≠ ch '0' := by decide
  have precision : c.precisionValue ≠ 0 := fun zero =>
    digit (by rw [places_eq wellFormed, zero]; rfl)
  have behind : ¬ (.minus ∈ c.flags ∨ c.width.amount < 0) := by
    rintro (left | negative)
    exacts [right left, absurd negative (by omega)]
  have made := pad_blank_iff (flagsOf c.flags c.own.length) (c.width.amount.toNat - 2)
    (c.width.amount.natAbs - 1)
  have front (m : Nat) (t : List UInt8) : pad (flagsOf c.flags c.own.length) m t =
      List.replicate m (padByte (flagsOf c.flags c.own.length)) ++ t := by
    simp [pad, flagsOf, right]
  rw [front] at made
  rw [written_blank number wellFormed room space, output_blank number hex, if_neg behind,
    front, zeroDigit, if_neg precision, List.length_singleton]
  by_cases spread : .zero ∈ c.flags ∧ c.places = none
  · -- C has nothing but zeroes.
    rw [if_pos spread]
    refine iff_of_false (fun same => ?_) ?_
    · have mem : ch ' ' ∈ List.replicate (c.width.amount.natAbs - c.places.getD 1) (ch '0') ++
          List.replicate (c.places.getD 1) (ch '0') := by
        rw [← same]
        simp
      rw [List.replicate_append_replicate] at mem
      exact blank (List.eq_of_mem_replicate mem)
    · rintro ⟨_, _, noZero | ⟨one, _⟩⟩
      · exact noZero spread.1
      · rw [spread.2] at one
        cases one
  rw [if_neg spread]
  by_cases one : ∀ k, c.places = some k → k = 1
  · have digits : c.places.getD 1 = 1 := by
      cases places : c.places with
      | none => rfl
      | some k => exact one k places
    have given : .zero ∈ c.flags → c.places = some 1 := fun zero => by
      cases places : c.places with
      | none => exact absurd ⟨zero, places⟩ spread
      | some k => rw [one k places]
    have last : List.replicate (c.width.amount.toNat - (1 + 1))
        (padByte (flagsOf c.flags c.own.length)) ++ [ch ' ', ch '0'] =
        List.replicate (c.width.amount.toNat - 2) (padByte (flagsOf c.flags c.own.length)) ++
          [ch ' '] ++ [ch '0'] := by simp
    rw [digits, last, List.replicate_one, List.append_cancel_right_eq, made]
    simp only [flagsOf, decide_eq_false_iff_not]
    constructor
    · rintro ⟨count, none | noZero⟩
      · by_cases zero : .zero ∈ c.flags
        · exact ⟨by omega, one, .inr ⟨given zero, by omega⟩⟩
        · exact ⟨by omega, one, .inl zero⟩
      · exact ⟨by omega, one, .inl noZero⟩
    · rintro ⟨two, -, noZero | ⟨-, same⟩⟩
      · exact ⟨by omega, .inr noZero⟩
      · exact ⟨by omega, .inl (by omega)⟩
  · -- C has a second zero in the place of the blank.
    refine iff_of_false (fun same => ?_) fun both => one both.2.1
    obtain ⟨k, places, more⟩ : ∃ k, c.places = some k ∧ k ≠ 1 := by
      simpa using one
    have nonzero : k ≠ 0 := fun zero => digit (by rw [places, zero])
    obtain ⟨j, rfl⟩ : ∃ j, k = j + 2 := ⟨k - 2, by omega⟩
    have ends : List.replicate (j + 2) (ch '0') =
        List.replicate j (ch '0') ++ [ch '0', ch '0'] := by
      rw [List.replicate_succ', List.replicate_succ']
      simp
    rw [places, Option.getD_some, ends, ← List.append_assoc] at same
    exact blank (List.cons.inj (List.append_inj_right' same rfl)).1

end Blank

end Zero

end EBBLib.Stdio
