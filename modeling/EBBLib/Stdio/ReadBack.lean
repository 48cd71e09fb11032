import EBBLib.Library.Numeral
import EBBLib.Stdio.Numbers

/-!
# Reading printed integers back

`printi` puts the sign or the radix prefix in front of the digits, and `prints` pads the whole
text. Zeroes that it pads with come in front of that prefix, or behind the digits.
-/

namespace EBBLib.Stdio

open StartInfo (CStr ascii wrapInt)

/-! ### The reader -/

/-- The text without the blanks at its ends. -/
def strip (cs : List UInt8) : List UInt8 :=
  ((cs.dropWhile (· = ch ' ')).reverse.dropWhile (· = ch ' ')).reverse

/-- The value of a digit in a base. -/
def digitOf (base : Nat) (c : UInt8) : Option Nat :=
  let d :=
    if ch '0' ≤ c ∧ c ≤ ch '9' then some (c.toNat - (ch '0').toNat)
    else if ch 'a' ≤ c ∧ c ≤ ch 'f' then some (c.toNat - (ch 'a').toNat + 10)
    else if ch 'A' ≤ c ∧ c ≤ ch 'F' then some (c.toNat - (ch 'A').toNat + 10)
    else none
  d.filter (· < base)

/-- An optional sign: whether it is a minus, and the rest. -/
def readSign : List UInt8 → Bool × List UInt8
  | [] => (false, [])
  | c :: cs =>
      if c = ch '-' then (true, cs) else if c = ch '+' then (false, cs) else (false, c :: cs)

/-- An optional `0x` or `0X` in base 16. -/
def readRadix (base : Nat) : List UInt8 → List UInt8
  | z :: x :: cs => if base = 16 ∧ z = ch '0' ∧ (x = ch 'x' ∨ x = ch 'X') then cs else z :: x :: cs
  | cs => cs

/-- An optionally signed numeral. -/
def parse (base : Nat) (cs : List UInt8) : Option Int :=
  let (neg, cs) := readSign cs
  (Numeral.value (digitOf base) base (readRadix base cs)).map fun n => if neg then -n else n

/-! ### What is printed -/

/-- The number of digits. -/
def digitCount (v : Int) (base : Nat) : Nat :=
  if v = 0 then 1 else (Nat.digits base v.natAbs).length

/-- No zeroes are padded with, or they change nothing: behind the digits of zero, or in front of
digits that have no prefix. -/
def ReadsBack (c : Conv) (base : Nat) (v : Int) : Prop :=
  .zero ∉ c.flags ∨ c.width.value ≤ prefixLen v base c.flags + digitCount v base ∨
    if .minus ∈ c.flags then v = 0 else prefixLen v base c.flags = 0

/-- The digits. -/
def bodyOf (v : Int) (base : Nat) (cbase : UInt8) : List UInt8 :=
  if v = 0 then [ch '0'] else digitsText base cbase v.natAbs

/-! ### The reader on its parts -/

theorem digitOf_digitChar {base : Nat} {cbase : UInt8} (known : base = 10 ∨ base = 16)
    (letter : cbase = ch 'a' ∨ cbase = ch 'A') {d : Nat} (digit : d < base) :
    digitOf base (digitChar cbase d) = some d := by
  rcases known with rfl | rfl <;> rcases letter with rfl | rfl <;> revert d <;> decide

/-- Blanks, signs and the letter of the radix prefix are no digits. -/
theorem digitOf_marks {base : Nat} (known : base = 10 ∨ base = 16) :
    ∀ c ∈ [ch ' ', ch '-', ch '+', ch 'x', ch 'X'], digitOf base c = none := by
  rcases known with rfl | rfl <;> decide +kernel

/-- A list of digits. -/
def Digits (base : Nat) (t : List UInt8) : Prop := t ≠ [] ∧ ∀ c ∈ t, digitOf base c ≠ none

theorem bodyOf_digits {v : Int} {base : Nat} {cbase : UInt8} (known : base = 10 ∨ base = 16)
    (letter : cbase = ch 'a' ∨ cbase = ch 'A') : Digits base (bodyOf v base cbase) := by
  unfold bodyOf
  split
  · refine ⟨by simp, List.forall_mem_singleton.mpr ?_⟩
    rcases known with rfl | rfl <;> decide
  · rename_i nonzero
    constructor
    · simpa [digitsText, Nat.digits_eq_nil_iff_eq_zero] using nonzero
    · intro c mem
      obtain ⟨d, digit, rfl⟩ := List.mem_map.mp mem
      have below := Nat.digits_lt_base (by omega) (List.mem_reverse.mp digit)
      rw [digitOf_digitChar known letter below]
      simp

theorem valueFrom_bodyOf {v : Int} {base : Nat} {cbase : UInt8} (known : base = 10 ∨ base = 16)
    (letter : cbase = ch 'a' ∨ cbase = ch 'A') (m : Nat) :
    Numeral.valueFrom (digitOf base) base 0 (bodyOf v base cbase ++ List.replicate m (ch '0')) =
      some (v.natAbs * base ^ m) := by
  have zero : digitOf base (ch '0') = some 0 := by
    rcases known with rfl | rfl <;> decide
  rw [Numeral.valueFrom_append, bodyOf]
  split
  · rename_i none
    simp [Numeral.valueFrom, zero, Numeral.valueFrom_zeroes zero, none]
  · rw [digitsText, Numeral.valueFrom_digits (by omega) fun d => digitOf_digitChar known letter]
    simp [Numeral.valueFrom_zeroes zero]

theorem Digits.head {base : Nat} {t : List UInt8} (digits : Digits base t) :
    ∃ c t', t = c :: t' ∧ digitOf base c ≠ none := by
  obtain ⟨nonempty, all⟩ := digits
  cases t with
  | nil => exact absurd rfl nonempty
  | cons c t => exact ⟨c, t, rfl, all c List.mem_cons_self⟩

theorem not_mark {base : Nat} {c : UInt8} (known : base = 10 ∨ base = 16)
    (digit : digitOf base c ≠ none) : c ∉ [ch ' ', ch '-', ch '+', ch 'x', ch 'X'] :=
  fun mem => digit (digitOf_marks known c mem)

/-- Digits are read as they are. -/
theorem parse_digits {base : Nat} {t : List UInt8} (known : base = 10 ∨ base = 16)
    (digits : Digits base t) :
    parse base t = (Numeral.valueFrom (digitOf base) base 0 t).map fun n => (n : Int) := by
  obtain ⟨c, t', rfl, digit⟩ := digits.head
  have other := not_mark known digit
  simp only [List.mem_cons, List.not_mem_nil, or_false, not_or] at other
  have sign : readSign (c :: t') = (false, c :: t') := by
    simp [readSign, other]
  have radix : readRadix base (c :: t') = c :: t' := by
    cases t' with
    | nil => rfl
    | cons x t' =>
        have other' := not_mark known (digits.2 x (by simp))
        simp only [List.mem_cons, List.not_mem_nil, or_false, not_or] at other'
        simp [readRadix, other']
  simp [parse, sign, radix, Numeral.value_eq]

theorem parse_sign {sign : UInt8} {t : List UInt8} (digits : Digits 10 t)
    (mark : sign = ch '-' ∨ sign = ch '+') :
    parse 10 (sign :: t) = (Numeral.valueFrom (digitOf 10) 10 0 t).map fun n =>
      if sign = ch '-' then -(n : Int) else n := by
  have radix : readRadix 10 t = t := by
    unfold readRadix
    split <;> simp
  rcases mark with rfl | rfl
  · simp [parse, readSign, radix, Numeral.value_eq digits.1]
  · have other : ch '+' ≠ ch '-' := by decide
    simp [parse, readSign, other, radix, Numeral.value_eq digits.1]

theorem parse_radix {x : UInt8} {t : List UInt8} (digits : Digits 16 t)
    (letter : x = ch 'x' ∨ x = ch 'X') :
    parse 16 (ch '0' :: x :: t) =
      (Numeral.valueFrom (digitOf 16) 16 0 t).map fun n => (n : Int) := by
  have minus : ch '0' ≠ ch '-' := by decide
  have plus : ch '0' ≠ ch '+' := by decide
  simp [parse, readSign, minus, plus, readRadix, letter, Numeral.value_eq digits.1]

theorem Digits.zeroes {base : Nat} {t : List UInt8} (known : base = 10 ∨ base = 16)
    (digits : Digits base t) (m : Nat) : Digits base (t ++ List.replicate m (ch '0')) := by
  have zero : digitOf base (ch '0') ≠ none := by
    rcases known with rfl | rfl <;> decide
  refine ⟨fun none => digits.1 (List.append_eq_nil_iff.mp none).1, fun c mem => ?_⟩
  rcases List.mem_append.mp mem with mem | mem
  · exact digits.2 c mem
  · rw [List.eq_of_mem_replicate mem]
    exact zero

/-- What a prefix is without its blank. -/
theorem mark_cases {v : Int} {base : Nat} (flags : Flags) {cbase : UInt8}
    (known : base = 10 ∨ base = 16) (letter : cbase = ch 'a' ∨ cbase = ch 'A')
    (sign : base = 16 → 0 ≤ v) :
    let mark := (leadOf v base flags cbase).dropWhile (· = ch ' ')
    (0 ≤ v ∧ mark = []) ∨ (base = 10 ∧ v < 0 ∧ mark = [ch '-']) ∨
      (base = 10 ∧ 0 ≤ v ∧ mark = [ch '+']) ∨
      (base = 16 ∧ 0 ≤ v ∧ ∃ x, (x = ch 'x' ∨ x = ch 'X') ∧ mark = [ch '0', x]) := by
  by_cases zero : v = 0
  · refine .inl ⟨zero.ge, ?_⟩
    rw [leadOf, if_pos zero]
    split <;> rfl
  rw [leadOf, if_neg zero]
  rcases known with rfl | rfl
  · by_cases neg : v < 0
    · refine .inr (.inl ⟨rfl, neg, ?_⟩)
      simp only [prefixOf, neg, and_self, decide_true, if_true]
      rfl
    · have pos : 0 ≤ v := by omega
      have unsigned : prefixOf 10 (decide (10 = 10 ∧ v < 0)) flags cbase =
          if flags.positiveSign then [ch '+'] else if flags.noSignSpace then [ch ' '] else [] := by
        simp [prefixOf, neg]
      rw [unsigned]
      split_ifs
      · exact .inr (.inr (.inl ⟨rfl, pos, rfl⟩))
      · exact .inl ⟨pos, rfl⟩
      · exact .inl ⟨pos, rfl⟩
  · refine .inr (.inr (.inr ⟨rfl, sign rfl, cbase - ch 'A' + ch 'X', ?_, rfl⟩))
    rcases letter with rfl | rfl <;> decide

/-- The prefix without a blank, with zeroes behind the digits. -/
theorem parse_lead {v : Int} {base : Nat} (flags : Flags) {cbase : UInt8}
    (known : base = 10 ∨ base = 16) (letter : cbase = ch 'a' ∨ cbase = ch 'A')
    (sign : base = 16 → 0 ≤ v) (m : Nat) :
    parse base ((leadOf v base flags cbase).dropWhile (· = ch ' ') ++
      (bodyOf v base cbase ++ List.replicate m (ch '0'))) = some (v * base ^ m) := by
  have digits := (bodyOf_digits (v := v) known letter).zeroes known m
  have value := valueFrom_bodyOf (v := v) known letter m
  have unsigned (pos : 0 ≤ v) : (v.natAbs : Int) = v := Int.natAbs_of_nonneg pos
  obtain ⟨pos, mark⟩ | ⟨rfl, neg, mark⟩ | ⟨rfl, pos, mark⟩ | ⟨rfl, pos, x, radix, mark⟩ :=
    mark_cases flags known letter sign
  · rw [mark, List.nil_append, parse_digits known digits, value]
    simp [unsigned pos]
  · have opposite : (v.natAbs : Int) = -v := by omega
    rw [mark, List.singleton_append, parse_sign digits (.inl rfl), value]
    simp [opposite]
  · have plus : ch '+' ≠ ch '-' := by decide
    rw [mark, List.singleton_append, parse_sign digits (.inr rfl), value]
    simp [plus, unsigned pos]
  · rw [mark, List.cons_append, List.singleton_append, parse_radix digits radix, value]
    simp [unsigned pos]

/-- Zeroes in front of digits that have no prefix. -/
theorem parse_zeroes {v : Int} {base : Nat} {flags : Flags} {cbase : UInt8}
    (known : base = 10 ∨ base = 16) (letter : cbase = ch 'a' ∨ cbase = ch 'A')
    (bare : leadOf v base flags cbase = []) (n : Nat) :
    parse base (List.replicate n (ch '0') ++ bodyOf v base cbase) = some v := by
  have zero : digitOf base (ch '0') = some 0 := by
    rcases known with rfl | rfl <;> decide
  have body := bodyOf_digits (v := v) known letter
  have digits : Digits base (List.replicate n (ch '0') ++ bodyOf v base cbase) := by
    refine ⟨fun none => body.1 (List.append_eq_nil_iff.mp none).2, fun c mem => ?_⟩
    rcases List.mem_append.mp mem with mem | mem
    · rw [List.eq_of_mem_replicate mem, zero]
      simp
    · exact body.2 c mem
  have pos : 0 ≤ v := by
    by_contra neg
    have nonzero : v ≠ 0 := by omega
    rw [leadOf, if_neg nonzero] at bare
    rcases known with rfl | rfl
    · have minus : v < 0 := by omega
      simp [prefixOf, minus] at bare
    · simp [prefixOf] at bare
  have value := valueFrom_bodyOf (v := v) known letter 0
  rw [List.replicate_zero, List.append_nil, Nat.pow_zero, Nat.mul_one] at value
  rw [parse_digits known digits, Numeral.valueFrom_append, Numeral.valueFrom_zeroes zero,
    Nat.zero_mul, Option.bind_some, value]
  simp [Int.natAbs_of_nonneg pos]

theorem leadOf_mem (v : Int) (base : Nat) (flags : Flags) {cbase : UInt8}
    (letter : cbase = ch 'a' ∨ cbase = ch 'A') :
    leadOf v base flags cbase ∈
      [[], [ch ' '], [ch '-'], [ch '+'], [ch '0', ch 'x'], [ch '0', ch 'X']] := by
  have radix : cbase - ch 'A' + ch 'X' = ch 'x' ∨ cbase - ch 'A' + ch 'X' = ch 'X' := by
    rcases letter with rfl | rfl <;> decide
  unfold leadOf prefixOf
  split_ifs <;> rcases radix with same | same <;> simp [same]

/-- A prefix does not begin with the letter of a radix, and a character of it is no digit. -/
theorem leadOf_cons {v : Int} {base : Nat} {flags : Flags} {cbase : UInt8}
    (known : base = 10 ∨ base = 16) (letter : cbase = ch 'a' ∨ cbase = ch 'A')
    (nonempty : leadOf v base flags cbase ≠ []) :
    ∃ y t, leadOf v base flags cbase = y :: t ∧ y ≠ ch 'x' ∧ y ≠ ch 'X' ∧
      ∃ c ∈ y :: t, digitOf base c = none := by
  have marks := digitOf_marks known
  have mem := leadOf_mem v base flags letter
  simp only [List.mem_cons, List.not_mem_nil, or_false] at mem
  rcases mem with same | same | same | same | same | same
  · exact absurd same nonempty
  · exact ⟨_, _, same, by decide, by decide, ch ' ', by simp, marks _ (by simp)⟩
  · exact ⟨_, _, same, by decide, by decide, ch '-', by simp, marks _ (by simp)⟩
  · exact ⟨_, _, same, by decide, by decide, ch '+', by simp, marks _ (by simp)⟩
  · exact ⟨_, _, same, by decide, by decide, ch 'x', by simp, marks _ (by simp)⟩
  · exact ⟨_, _, same, by decide, by decide, ch 'X', by simp, marks _ (by simp)⟩

/-- Zeroes in front of a prefix. -/
theorem parse_before_lead {v : Int} {base : Nat} {flags : Flags} {cbase : UInt8}
    (known : base = 10 ∨ base = 16) (letter : cbase = ch 'a' ∨ cbase = ch 'A')
    (nonempty : leadOf v base flags cbase ≠ []) (n : Nat) (t : List UInt8) :
    parse base (List.replicate (n + 1) (ch '0') ++ (leadOf v base flags cbase ++ t)) = none := by
  obtain ⟨y, u, lead, noX, noX', c, mem, other⟩ := leadOf_cons known letter nonempty
  have minus : ch '0' ≠ ch '-' := by decide
  have plus : ch '0' ≠ ch '+' := by decide
  have zero : ch '0' ≠ ch 'x' ∧ ch '0' ≠ ch 'X' := by decide
  have radix : readRadix base (ch '0' :: (List.replicate n (ch '0') ++ (y :: u ++ t))) =
      ch '0' :: (List.replicate n (ch '0') ++ (y :: u ++ t)) := by
    cases n with
    | zero => simp [readRadix, noX, noX']
    | succ n => simp [List.replicate_succ, readRadix, zero]
  have bad : Numeral.valueFrom (digitOf base) base 0
      (ch '0' :: (List.replicate n (ch '0') ++ (y :: u ++ t))) = none :=
    Numeral.valueFrom_none (by simp only [List.mem_cons, List.mem_append] at mem ⊢; tauto) other 0
  rw [lead, List.replicate_succ, List.cons_append, parse, readSign, if_neg minus, if_neg plus]
  simp only [radix]
  rw [Numeral.value_eq (by simp), bad]
  rfl

/-! ### Blanks -/

theorem dropWhile_blanks (k : Nat) (t : List UInt8) :
    (List.replicate k (ch ' ') ++ t).dropWhile (· = ch ' ') = t.dropWhile (· = ch ' ') := by
  induction k with
  | zero => rfl
  | succ k ih => simp [List.replicate_succ, ih]

theorem dropWhile_front {c : UInt8} (lead t : List UInt8) (ends : c ≠ ch ' ') :
    (lead ++ c :: t).dropWhile (· = ch ' ') = lead.dropWhile (· = ch ' ') ++ c :: t := by
  induction lead with
  | nil => simp [ends]
  | cons x lead ih =>
      by_cases blank : x = ch ' '
      · simp [blank, ih]
      · simp [blank]

/-- Blanks around a text that begins with a prefix and ends with a digit. -/
theorem strip_text {c d : UInt8} {t t' t'' : List UInt8} (k m : Nat) (lead : List UInt8)
    (front : t = c :: t') (back : t = t'' ++ [d]) (noBlank : c ≠ ch ' ') (noBlank' : d ≠ ch ' ') :
    strip (List.replicate k (ch ' ') ++ (lead ++ t) ++ List.replicate m (ch ' ')) =
      lead.dropWhile (· = ch ' ') ++ t := by
  have first : (List.replicate k (ch ' ') ++ (lead ++ t) ++ List.replicate m (ch ' ')).dropWhile
      (· = ch ' ') = lead.dropWhile (· = ch ' ') ++ (t ++ List.replicate m (ch ' ')) := by
    rw [List.append_assoc, dropWhile_blanks, List.append_assoc, front, List.cons_append,
      dropWhile_front lead _ noBlank]
  have last : (lead.dropWhile (· = ch ' ') ++ (t ++ List.replicate m (ch ' '))).reverse =
      List.replicate m (ch ' ') ++ d :: (lead.dropWhile (· = ch ' ') ++ t'').reverse := by
    rw [back]
    simp
  rw [strip, first, last, dropWhile_blanks, List.dropWhile_cons_of_neg (by simpa using noBlank'),
    back]
  simp

/-- The ends of digits. -/
theorem Digits.ends {base : Nat} {t : List UInt8} (known : base = 10 ∨ base = 16)
    (digits : Digits base t) :
    ∃ c t' d t'', t = c :: t' ∧ t = t'' ++ [d] ∧ c ≠ ch ' ' ∧ d ≠ ch ' ' := by
  have noBlank (c : UInt8) (mem : c ∈ t) : c ≠ ch ' ' := by
    rintro rfl
    exact not_mark known (digits.2 _ mem) (by simp)
  obtain ⟨c, t', front, -⟩ := digits.head
  obtain ⟨t'', d, back⟩ := List.eq_nil_or_concat t |>.resolve_left digits.1
  rw [List.concat_eq_append] at back
  exact ⟨c, t', d, t'', front, back, noBlank c (by simp [front]), noBlank d (by simp [back])⟩

/-- A text, padded. -/
def padded (v : Int) (base : Nat) (flags : Flags) (cbase : UInt8) (width : Int) : List UInt8 :=
  pad flags (width.toNat - (leadOf v base flags cbase ++ bodyOf v base cbase).length)
    (leadOf v base flags cbase ++ bodyOf v base cbase)

/-- Without a precision there are the digits alone. -/
theorem digitsOf_none (v : Int) (base : Nat) (cbase : UInt8) :
    digitsOf v base (-1) cbase = bodyOf v base cbase := by
  unfold digitsOf bodyOf
  split
  · rfl
  · have none : ((-1 : Int) - (digitsText base cbase v.natAbs).length).toNat = 0 := by omega
    simp only [none, List.replicate_zero, List.nil_append]

theorem prefixLen_le (v : Int) (base : Nat) (fs : List FlagChar) : prefixLen v base fs ≤ 2 := by
  unfold prefixLen
  split_ifs <;> decide

/-- Without a precision there is always room. -/
theorem hasRoom_of_plain {c : Conv} (plain : c.precision = none) : c.HasRoom := by
  intro base v _
  have short := prefixLen_le v base c.flags
  rw [Conv.precisionValue, plain]
  exact .inr (by simp only [Option.elim_none]; omega)

/-! ### Padded texts -/

section Padded

variable {v : Int} {base : Nat} (flags : Flags) {cbase : UInt8} (known : base = 10 ∨ base = 16)
  (letter : cbase = ch 'a' ∨ cbase = ch 'A') (sign : base = 16 → 0 ≤ v)

include known letter

/-- Zeroes in front of the text are read if nothing is between them and the digits. -/
theorem parse_zeroes_before (n : Nat) :
    parse base (strip (List.replicate (n + 1) (ch '0') ++
      (leadOf v base flags cbase ++ bodyOf v base cbase))) = some v ↔
      leadOf v base flags cbase = [] := by
  obtain ⟨-, -, d, t'', -, back, -, noBlank'⟩ := (bodyOf_digits (v := v) known letter).ends known
  have zero : ch '0' ≠ ch ' ' := by decide
  have ends : List.replicate (n + 1) (ch '0') ++ (leadOf v base flags cbase ++
      bodyOf v base cbase) = (List.replicate (n + 1) (ch '0') ++ (leadOf v base flags cbase ++
      t'')) ++ [d] := by
    rw [back]
    simp
  have front : List.replicate (n + 1) (ch '0') ++ (leadOf v base flags cbase ++
      bodyOf v base cbase) = ch '0' :: (List.replicate n (ch '0') ++ (leadOf v base flags cbase ++
      bodyOf v base cbase)) := rfl
  have stripped := strip_text 0 0 [] front ends zero noBlank'
  simp only [List.replicate_zero, List.nil_append, List.append_nil, List.dropWhile_nil] at stripped
  rw [stripped]
  by_cases bare : leadOf v base flags cbase = []
  · rw [bare, List.nil_append, parse_zeroes known letter bare]
    simp
  · rw [parse_before_lead known letter bare]
    simp [bare]

include sign

/-- Blanks around the text are not read. -/
theorem parse_blanks (k m : Nat) :
    parse base (strip (List.replicate k (ch ' ') ++
      (leadOf v base flags cbase ++ bodyOf v base cbase) ++ List.replicate m (ch ' '))) =
      some v := by
  obtain ⟨c, t', d, t'', front, back, noBlank, noBlank'⟩ :=
    (bodyOf_digits (v := v) known letter).ends known
  have read := parse_lead flags known letter sign 0
  rw [List.replicate_zero, List.append_nil, pow_zero, mul_one] at read
  rw [strip_text k m _ front back noBlank noBlank', read]

/-- Zeroes behind the text multiply. -/
theorem parse_zeroes_behind (m : Nat) :
    parse base (strip (leadOf v base flags cbase ++ bodyOf v base cbase ++
      List.replicate m (ch '0'))) = some (v * base ^ m) := by
  have digits := (bodyOf_digits (v := v) known letter).zeroes known m
  obtain ⟨c, t', d, t'', front, back, noBlank, noBlank'⟩ := digits.ends known
  have stripped := strip_text 0 0 (leadOf v base flags cbase) front back noBlank noBlank'
  rw [List.replicate_zero, List.nil_append, List.append_nil] at stripped
  rw [List.append_assoc, stripped, parse_lead flags known letter sign m]

theorem parse_padded_iff (width : Int) :
    parse base (strip (padded v base flags cbase width)) = some v ↔
      flags.padWithZeroes = false ∨
        width ≤ (leadOf v base flags cbase).length + (bodyOf v base cbase).length ∨
        if flags.justLeft then v = 0 else leadOf v base flags cbase = [] := by
  have blanks := parse_blanks flags known letter sign
  have none := blanks 0 0
  rw [List.replicate_zero, List.nil_append, List.append_nil] at none
  have count : width.toNat - (leadOf v base flags cbase ++ bodyOf v base cbase).length = 0 ↔
      width ≤ (leadOf v base flags cbase).length + (bodyOf v base cbase).length := by
    rw [List.length_append]
    omega
  rw [← count, padded, pad, padByte]
  cases zeroes : flags.padWithZeroes with
  | false =>
      refine iff_of_true ?_ (.inl rfl)
      cases left : flags.justLeft with
      | false => simpa using blanks _ 0
      | true => simpa using blanks 0 _
  | true =>
      simp only [if_true, Bool.true_eq_false, false_or]
      generalize width.toNat - (leadOf v base flags cbase ++ bodyOf v base cbase).length = n
      cases n with
      | zero => simp [none]
      | succ n =>
          cases left : flags.justLeft with
          | false =>
              simpa using parse_zeroes_before flags known letter n
          | true =>
              have two : 1 < (base : Int) := by omega
              have power : (base : Int) ^ (n + 1) ≠ 1 := (one_lt_pow₀ two n.succ_ne_zero).ne'
              simp only [if_true, Nat.succ_ne_zero, false_or]
              rw [parse_zeroes_behind flags known letter sign (n + 1), Option.some.injEq,
                mul_right_eq_self₀, or_iff_right power]

end Padded

theorem length_bodyOf (v : Int) (base : Nat) (cbase : UInt8) :
    (bodyOf v base cbase).length = digitCount v base := by
  unfold bodyOf digitCount
  split
  · rfl
  · exact length_digitsText base cbase _

/-- An integer that is printed without a precision reads back. -/
theorem readsBack_iff (c : Conv) (base : Nat) (v : Int) (order : c.InOrder)
    (plain : c.precision = none) (number : c.own.number = some (base, v)) :
    (∃ s, vfprintf ((Piece.conv c).text ++ [0]) c.args = .ok s ∧
      parse base (strip s.stream) = some v) ↔ ReadsBack c base v := by
  have letter : c.own.letter ≠ 'u' := by
    intro u
    cases own : c.own <;> rw [own] at u number <;> simp [Own.letter, Own.number] at u number
  have known := number_base number
  have sign : base = 16 → 0 ≤ v := fun hex => by
    rcases number_range number with ⟨decimal, -, -⟩ | ⟨-, lo, -⟩ <;> omega
  have room := hasRoom_of_plain plain
  obtain ⟨count, done⟩ := run_pieces [.conv c] [0] [] 0 [] fun c' mem => by
    cases List.mem_singleton.mp mem
    exact ⟨⟨order, letter⟩, room⟩
  have text : c.written =
      padded v base (flagsOf c.flags c.own.length) c.own.cbase c.width.value := by
    rw [written_number number room, Conv.precisionValue, plain]
    simp only [Option.elim_none, digitsOf_none]
    rfl
  have ran : vfprintf ((Piece.conv c).text ++ [0]) c.args =
      .ok ⟨c.written, count, []⟩ := by
    rw [run_nul] at done
    simpa [Piece.args, Piece.written, run, vfprintf] using done
  have once : (∃ s, vfprintf ((Piece.conv c).text ++ [0]) c.args = .ok s ∧
      parse base (strip s.stream) = some v) ↔
      parse base (strip c.written) = some v := by
    rw [ran]
    constructor
    · rintro ⟨s, same, read⟩
      cases same
      exact read
    · exact fun read => ⟨_, rfl, read⟩
  rw [once, text, parse_padded_iff _ known (cbase_letter c.own) sign,
    length_leadOf c.flags c.own.length _ known, length_bodyOf, ReadsBack,
    ← List.length_eq_zero_iff, length_leadOf c.flags c.own.length _ known]
  simp [flagsOf]

/-- `%+d` of the least `int`. -/
theorem readsBack_iff_sample : ∃ c : Conv, (Piece.conv c).text = ascii "%+d" ∧
    c.own.number = some (10, Int32.toInt (-2147483648)) ∧
    ∃ s, vfprintf ((Piece.conv c).text ++ [0]) c.args = .ok s ∧
      parse 10 (strip s.stream) = some (Int32.toInt (-2147483648)) := by
  let c : Conv := ⟨[.plus], .digits [], by simp, none, .d .none (-2147483648 : Int32)⟩
  have order : c.InOrder := ⟨List.pairwise_singleton .., fun _ => by decide⟩
  exact ⟨c, by decide, rfl, (readsBack_iff c 10 _ order rfl rfl).mpr (.inl (by decide))⟩

/-- `%05d` of -1: the zeroes come in front of the sign. -/
theorem exists_not_readsBack : ∃ c : Conv, (Piece.conv c).text = ascii "%05d" ∧ c.InOrder ∧
    c.own.number = some (10, -1) ∧
    (vfprintf ((Piece.conv c).text ++ [0]) c.args).map State.stream = .ok (ascii "000-1") ∧
    parse 10 (strip (ascii "000-1")) = none := by
  let c : Conv := ⟨[.zero], .digits [5], by simp, none, .d .none (-1 : Int32)⟩
  have order : c.InOrder := ⟨List.pairwise_singleton .., fun _ => by decide⟩
  exact ⟨c, by decide, order, by decide +kernel, by decide +kernel, by decide +kernel⟩

end EBBLib.Stdio
