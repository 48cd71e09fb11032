import EBBLib.Stdio.Recognition

/-!
# Each argument to its own conversion

A conversion that `vfprintf` recognises takes its arguments, wherever it stands in a format, and
adds their text to the stream.
-/

namespace EBBLib.Stdio

open StartInfo (CStr ascii wrapInt)

/-! ### The calls -/

theorem wrapInt_wrapUInt {w : Int} (lo : -2 ^ 31 ≤ w) (hi : w < 2 ^ 31) :
    wrapInt (wrapUInt w) = w := by
  simp only [wrapInt, wrapUInt]
  omega

theorem wrapLong_of_fits {x : Int} (lo : -2 ^ 63 ≤ x) (hi : x < 2 ^ 63) : wrapLong x = x := by
  simp only [wrapLong]
  omega

theorem value_fits (n : Number) : -2 ^ 31 ≤ n.value ∧ n.value < 2 ^ 31 := by
  cases n with
  | digits ds => exact StartInfo.wrapInt_fits _
  | star v => exact ⟨v.le_toInt, v.toInt_lt⟩

theorem signedVal_fits (length : Length) (v : Signed length) :
    -2 ^ 63 ≤ signedVal length v ∧ signedVal length v < 2 ^ 63 := by
  cases length with
  | none => exact ⟨by have := Int32.le_toInt v; simp only [signedVal]; omega,
      by have := Int32.toInt_lt v; simp only [signedVal]; omega⟩
  | h => exact ⟨by have := Int16.le_toInt v; simp only [signedVal]; omega,
      by have := Int16.toInt_lt v; simp only [signedVal]; omega⟩
  | l => exact ⟨Int64.le_toInt v, Int64.toInt_lt v⟩
  | ll => exact ⟨Int64.le_toInt v, Int64.toInt_lt v⟩

theorem unsignedVal_lt (length : Length) (v : Unsigned length) :
    unsignedVal length v < 2 ^ 64 := by
  cases length with
  | none => exact (UInt32.toNat_lt v).trans (by decide)
  | h => exact (UInt16.toNat_lt v).trans (by decide)
  | l => exact UInt64.toNat_lt v
  | ll => exact UInt64.toNat_lt v

/-- The call that prints an argument. There is none for `u`. -/
def Own.call (own : Own) (flags : Flags) (width precision : Int) (stream : List UInt8)
    (args : List Arg) : Except Fault (Out × List Arg) :=
  match own with
  | d length v | i length v =>
      printInt (signedVal length v) 10 width precision flags (ch 'a') stream args
  | u .. => .ok (⟨stream, 0⟩, args)
  | x length v =>
      printInt (wrapLong (unsignedVal length v)) 16 width precision flags (ch 'a') stream args
  | X length v =>
      printInt (wrapLong (unsignedVal length v)) 16 width precision flags (ch 'A') stream args
  | p address _ =>
      printInt (wrapLong address.toNat) 16 width precision flags (ch 'a') stream args
  | c v => printed (prints [UInt8.ofInt v.toInt, 0] width 1 flags stream) args
  | s address target =>
      printed (prints (if address ≠ 0 then target.bytes ++ [0] else ascii "(null)" ++ [0]) width
        precision flags stream) args

theorem vaSigned_own (fs : List FlagChar) (length : Length) (v : Signed length)
    (args : List Arg) :
    vaSigned (flagsOf fs length) (signedArg length v :: args) =
      .ok (signedVal length v, args) := by
  cases length with
  | none => rfl
  | h => exact congrArg (fun v => Except.ok (v, args)) (Int16.toInt_toInt32 v)
  | l => rfl
  | ll => rfl

theorem vaUnsigned_own (fs : List FlagChar) (length : Length) (v : Unsigned length)
    (args : List Arg) :
    vaUnsigned (flagsOf fs length).long (flagsOf fs length) (unsignedArg length v :: args) =
      .ok (wrapLong (unsignedVal length v), args) := by
  cases length with
  | none =>
      have small : v.toNat < 2 ^ 32 := UInt32.toNat_lt v
      have same : wrapUInt (wrapInt v.toNat) = wrapLong v.toNat := by
        simp only [wrapUInt, wrapInt, wrapLong]
        omega
      exact congrArg (fun v => Except.ok (v, args)) same
  | h =>
      have small : v.toNat < 2 ^ 16 := UInt16.toNat_lt v
      have passed : (Int32.ofInt v.toNat).toInt = v.toNat :=
        Int32.toInt_ofInt_of_le (by omega) (by omega)
      have same : (Int32.ofInt v.toNat).toInt % 2 ^ 16 = wrapLong v.toNat := by
        rw [passed, wrapLong_of_fits (by omega) (by omega)]
        omega
      exact congrArg (fun v => Except.ok (v, args)) same
  | l => rfl
  | ll => rfl

theorem vaInteger_x (flags : Flags) (args : List Arg) :
    vaInteger (ch 'x') flags args = some (16, ch 'a', vaUnsigned flags.long flags args) := by
  have signed : ¬ (ch 'x' = ch 'd' ∨ ch 'x' = ch 'i') := by decide
  have other : ch 'x' ≠ ch 'p' := by decide
  simp [vaInteger, signed, other]

/-- A letter that `vfprintf` has a branch for calls with its own argument. -/
theorem specify_own (own : Own) (fs : List FlagChar) (width precision : Int) (args : List Arg)
    (stream : List UInt8) (known : own.letter ≠ 'u') (lo : -2 ^ 31 ≤ width)
    (hi : width < 2 ^ 31) :
    specify (ch own.letter) (flagsOf fs own.length) (wrapUInt width) precision
      (own.arg :: args) stream =
      own.call (flagsOf fs own.length) width precision stream args := by
  have back := wrapInt_wrapUInt lo hi
  have integer {letter : Char} {flags : Flags} {arg : Arg} {base : Nat} {cbase : UInt8}
      {v : Int} (asked : vaInteger (ch letter) flags (arg :: args) =
        some (base, cbase, .ok (v, args))) :
      specify (ch letter) flags (wrapUInt width) precision (arg :: args) stream =
        printInt v base width precision flags cbase stream args := by
    rw [specify_integer asked, back]
    rfl
  cases own with
  | d length v | i length v =>
      exact integer (congrArg (fun va => some (10, ch 'a', va)) (vaSigned_own fs length v args))
  | u length v => exact absurd rfl known
  | x length v =>
      refine integer ((vaInteger_x _ _).trans ?_)
      exact congrArg (fun va => some (16, ch 'a', va)) (vaUnsigned_own fs length v args)
  | X length v =>
      exact integer (congrArg (fun va => some (16, ch 'A', va)) (vaUnsigned_own fs length v args))
  | p address target => exact integer rfl
  | c v | s address target =>
      simp only [Own.letter, Own.length, Own.arg, specify, back]
      rfl

theorem takeNumber_own (n : Number) (args : List Arg) :
    takeNumber n (n.args ++ args) = .ok (n.value, args) := by
  cases n <;> rfl

/-- The precision as it arrives. -/
def Conv.precisionValue (c : Conv) : Int := c.precision.elim (-1) Number.value

/-- A conversion that `vfprintf` reads whole takes its arguments to its call. -/
theorem directive_call (c : Conv) (rest stream : List UInt8) (count : Int) (args : List Arg)
    (good : c.InOrder) (known : c.own.letter ≠ 'u') :
    directive (c.text ++ rest) ⟨stream, count, c.args ++ args⟩ =
      (c.own.call (flagsOf c.flags c.own.length) c.width.value c.precisionValue stream args).map
        fun out => (rest, State.add ⟨stream, count, c.args ++ args⟩ out) := by
  have width : takeNumber c.width (c.args ++ args) =
      .ok (c.width.value, c.precision.elim [] Number.args ++ c.own.arg :: args) := by
    rw [Conv.args, List.append_assoc, takeNumber_own]
    simp
  have precision : c.precision.elim
      (.ok (-1, c.precision.elim [] Number.args ++ c.own.arg :: args))
      (takeNumber · (c.precision.elim [] Number.args ++ c.own.arg :: args)) =
      .ok (c.precisionValue, c.own.arg :: args) := by
    unfold Conv.precisionValue
    cases c.precision with
    | none => rfl
    | some n => exact takeNumber_own n _
  obtain ⟨lo, hi⟩ := value_fits c.width
  rw [directive_text c rest _ good]
  simp only [width, precision, Except.bind]
  rw [specify_own c.own c.flags _ _ args stream known lo hi]

/-! ### Room for the text -/

/-- The base and the number that a conversion prints, unsigned for base 16. -/
def Own.number : Own → Option (Nat × Int)
  | d length v | i length v => some (10, signedVal length v)
  | x length v | X length v => some (16, unsignedVal length v)
  | p address _ => some (16, address.toNat)
  | u .. | c .. | s .. => none

/-- `cbase`. -/
def Own.cbase : Own → UInt8
  | X .. => ch 'A'
  | d .. | i .. | u .. | x .. | p .. | c .. | s .. => ch 'a'

theorem cbase_letter (own : Own) : own.cbase = ch 'a' ∨ own.cbase = ch 'A' := by
  cases own <;> simp [Own.cbase]

theorem number_range {own : Own} {base : Nat} {v : Int} (number : own.number = some (base, v)) :
    (base = 10 ∧ -2 ^ 63 ≤ v ∧ v < 2 ^ 63) ∨ (base = 16 ∧ 0 ≤ v ∧ v < 2 ^ 64) := by
  cases own with
  | d length v' | i length v' =>
      cases number
      exact .inl ⟨rfl, signedVal_fits length v'⟩
  | x length v' | X length v' =>
      cases number
      have hi := unsignedVal_lt length v'
      exact .inr ⟨rfl, Int.natCast_nonneg _, by omega⟩
  | p address target =>
      cases number
      have hi := UInt64.toNat_lt address
      exact .inr ⟨rfl, Int.natCast_nonneg _, by omega⟩
  | u | c | s => cases number

theorem number_base {own : Own} {base : Nat} {v : Int} (number : own.number = some (base, v)) :
    base = 10 ∨ base = 16 := (number_range number).imp And.left And.left

theorem call_number {own : Own} {base : Nat} {v : Int} (number : own.number = some (base, v))
    (flags : Flags) (width precision : Int) (stream : List UInt8) (args : List Arg) :
    own.call flags width precision stream args =
      printInt (wrapLong v) base width precision flags own.cbase stream args := by
  cases own with
  | d length v' | i length v' =>
      cases number
      rw [wrapLong_of_fits (signedVal_fits length v').1 (signedVal_fits length v').2]
      rfl
  | x | X | p =>
      cases number
      rfl
  | u | c | s => cases number

/-- The length of the sign, the blank or the radix prefix. -/
def prefixLen (v : Int) (base : Nat) (fs : List FlagChar) : Nat :=
  if v = 0 then if .space ∈ fs then 1 else 0
  else if base = 16 then 2
  else if v < 0 ∨ .plus ∈ fs ∨ .space ∈ fs then 1
  else 0

/-- The text of an integer fits into `print_buf`. -/
def Conv.HasRoom (c : Conv) : Prop :=
  ∀ base v, c.own.number = some (base, v) →
    v = 0 ∨ c.precisionValue + prefixLen v base c.flags ≤ 79

/-- The prefix of a number that is not zero. -/
theorem length_prefixOf {own : Own} {base : Nat} {v : Int} (number : own.number = some (base, v))
    (fs : List FlagChar) (length : Length) (cbase : UInt8) (nonzero : v ≠ 0) :
    (prefixOf base (isNeg (wrapLong v) base 1) (flagsOf fs length) cbase).length =
      prefixLen v base fs := by
  rw [prefixLen, if_neg nonzero]
  rcases number_range number with ⟨rfl, lo, hi⟩ | ⟨rfl, lo, hi⟩
  · rw [wrapLong_of_fits lo hi, if_neg (by decide)]
    by_cases neg : v < 0
    · simp [prefixOf, isNeg, neg]
    · by_cases plus : .plus ∈ fs
      · simp [prefixOf, isNeg, neg, plus, flagsOf]
      · by_cases space : .space ∈ fs <;> simp [prefixOf, isNeg, neg, plus, space, flagsOf]
  · simp [prefixOf]

theorem wrapLong_eq_zero {own : Own} {base : Nat} {v : Int}
    (number : own.number = some (base, v)) : wrapLong v = 0 ↔ v = 0 := by
  simp only [wrapLong]
  rcases number_range number with ⟨-, lo, hi⟩ | ⟨-, lo, hi⟩ <;> omega

theorem room_iff {c : Conv} {base : Nat} {v : Int} (number : c.own.number = some (base, v)) :
    Room (wrapLong v) base 1 c.precisionValue (flagsOf c.flags c.own.length) c.own.cbase ↔
      c.HasRoom := by
  have shorter : c.HasRoom ↔ v = 0 ∨ c.precisionValue + prefixLen v base c.flags ≤ 79 := by
    constructor
    · exact fun all => all base v number
    · intro room base' v' number'
      rw [number] at number'
      cases number'
      exact room
  rw [shorter, Room, wrapLong_eq_zero number]
  by_cases zero : v = 0
  · simp [zero]
  · rw [length_prefixOf number c.flags c.own.length c.own.cbase zero]

/-! ### What is written -/

/-- What the call for a conversion writes. -/
def Conv.written (c : Conv) : List UInt8 :=
  match c.own.call (flagsOf c.flags c.own.length) c.width.value c.precisionValue [] [] with
  | .ok (o, _) => o.stream
  | .error _ => []

theorem printed_behind (str : List UInt8) (width precision : Int) (flags : Flags)
    (stream : List UInt8) (args : List Arg)
    (whole : (prints str width precision flags []).isSome) :
    ∃ o, printed (prints str width precision flags []) [] = .ok (o, []) ∧
      printed (prints str width precision flags stream) args = .ok (o.behind stream, args) := by
  obtain ⟨o, found⟩ := Option.isSome_iff_exists.mp whole
  exact ⟨o, by rw [found]; rfl, by rw [prints_behind, found]; rfl⟩

/-- The call adds the same text to every stream. -/
theorem call_written (c : Conv) (stream : List UInt8) (args : List Arg) (room : c.HasRoom) :
    ∃ count, c.own.call (flagsOf c.flags c.own.length) c.width.value c.precisionValue stream args =
      .ok (⟨stream ++ c.written, count⟩, args) := by
  suffices both : ∃ o : Out,
      c.own.call (flagsOf c.flags c.own.length) c.width.value c.precisionValue [] [] =
        .ok (o, []) ∧
      c.own.call (flagsOf c.flags c.own.length) c.width.value c.precisionValue stream args =
        .ok (o.behind stream, args) by
    obtain ⟨o, alone, behind⟩ := both
    refine ⟨o.count, ?_⟩
    rw [behind, Conv.written, alone]
    rfl
  cases number : c.own.number with
  | some called =>
      obtain ⟨base, v⟩ := called
      have known := number_base number
      have fits := (room_iff number).mpr room
      simp only [call_number number, printInt_ok known fits]
      exact printed_behind _ _ _ _ _ _ (printi_isSome _ _ _ _ _ _ _ [] (by omega))
  | none =>
      cases own : c.own with
      | d | i | x | X | p =>
          rw [own] at number
          cases number
      | u length v => exact ⟨⟨[], 0⟩, rfl, by simp [Own.call, Out.behind]⟩
      | c v => exact printed_behind _ _ _ _ _ _ (prints_char_isSome ..)
      | s address target =>
          refine printed_behind _ _ _ _ _ _ ?_
          split <;> exact prints_isSome _ [] _ _ _ _

theorem call_outside (c : Conv) (stream : List UInt8) (args : List Arg) (full : ¬ c.HasRoom) :
    c.own.call (flagsOf c.flags c.own.length) c.width.value c.precisionValue stream args =
      .error .outside := by
  cases number : c.own.number with
  | some called =>
      obtain ⟨base, v⟩ := called
      rw [call_number number]
      exact printInt_outside (number_base number) (mt (room_iff number).mp full) _ _ _
  | none =>
      refine absurd (fun base v same => ?_) full
      rw [number] at same
      cases same

/-- A conversion that `vfprintf` reads whole takes its arguments and writes their text. -/
theorem directive_own (c : Conv) (rest stream : List UInt8) (count : Int) (args : List Arg)
    (good : c.InOrder) (known : c.own.letter ≠ 'u') (room : c.HasRoom) :
    ∃ count', directive (c.text ++ rest) ⟨stream, count, c.args ++ args⟩ =
      .ok (rest, ⟨stream ++ c.written, count', args⟩) := by
  obtain ⟨added, called⟩ := call_written c stream args room
  refine ⟨wrapUInt (count + added), ?_⟩
  rw [directive_call c rest stream count args good known, called]
  rfl

/-! ### Runs over pieces -/

def Piece.written : Piece → List UInt8
  | literal c _ _ => [c]
  | percent => [ch '%']
  | conv c => c.written

/-- `vfprintf` reads a conversion whole, and has a branch for its letter. -/
def Conv.Known (c : Conv) : Prop := c.InOrder ∧ c.own.letter ≠ 'u'

theorem printit_eq {c : UInt8} (s : State) (more : c ≠ 0) :
    printit c s = .ok ⟨s.stream ++ [c], wrapUInt (s.count + 1), s.args⟩ := by
  have once : prints [c, 0] 0 1 Flags.none s.stream = some ⟨s.stream ++ [c], 1⟩ := by
    simp [prints, copyStr, padTo, more, Flags.none, Out.putc, wrapInt]
  rw [printit, once]
  rfl

/-- A piece with its arguments. -/
theorem run_own (p : Piece) (rest stream : List UInt8) (count : Int) (args : List Arg)
    (good : ∀ c, p = .conv c → c.Known ∧ c.HasRoom) :
    ∃ count', run (p.text ++ rest) ⟨stream, count, p.args ++ args⟩ =
      run rest ⟨stream ++ p.written, count', args⟩ := by
  cases p with
  | literal c more plain =>
      refine ⟨wrapUInt (count + 1), ?_⟩
      change run (c :: rest) _ = _
      rw [run_literal rest _ more plain, printit_eq _ more]
      rfl
  | percent =>
      refine ⟨wrapUInt (count + 1), ?_⟩
      change run (ch '%' :: ch '%' :: rest) _ = _
      rw [run_directive, directive_percent, printit_eq _ (by decide)]
      rfl
  | conv c =>
      obtain ⟨⟨order, known⟩, room⟩ := good c rfl
      obtain ⟨count', taken⟩ := directive_own c rest stream count args order known room
      refine ⟨count', ?_⟩
      change run (ch '%' :: (c.text ++ rest)) ⟨stream, count, c.args ++ args⟩ = _
      rw [run_directive, taken]
      rfl

theorem run_pieces (pieces : List Piece) (rest stream : List UInt8) (count : Int)
    (args : List Arg) (good : ∀ c, Piece.conv c ∈ pieces → c.Known ∧ c.HasRoom) :
    ∃ count', run (pieces.flatMap Piece.text ++ rest)
      ⟨stream, count, pieces.flatMap Piece.args ++ args⟩ =
      run rest ⟨stream ++ pieces.flatMap Piece.written, count', args⟩ := by
  induction pieces generalizing stream count with
  | nil => exact ⟨count, by simp⟩
  | cons p pieces ih =>
      simp only [List.flatMap_cons, List.append_assoc]
      obtain ⟨count', first⟩ := run_own p (pieces.flatMap Piece.text ++ rest) stream count
        (pieces.flatMap Piece.args ++ args) fun c same => good c (same ▸ List.mem_cons_self)
      obtain ⟨last, later⟩ := ih (stream ++ p.written) count' fun c mem =>
        good c (List.mem_cons_of_mem p mem)
      exact ⟨last, by rw [first, later, List.append_assoc]⟩

end EBBLib.Stdio
