import EBBLib.Stdio.Vfprintf

/-!
# Reading the format

The only test for the NUL is at the head of the loop, and every pass ends with a `format++`. A
pass that finds the NUL where it looks for its specifier goes behind it.
-/

namespace EBBLib.Stdio

open StartInfo (CStr ascii wrapInt)

/-! ### How far a pass goes -/

/-- The flags, the precision and the arguments that are left at a specifier, and the pointer at
it. -/
def toSpecifier (format : List UInt8) (args : List Arg) :
    Except Fault (Flags × Int × List Arg × List UInt8) :=
  let (flags, format) := parseFlags format
  (parseWidth format args).bind fun (_, format, args) =>
    (parsePrecision format args).map fun (precision, format, args) =>
      let (flags, format) := parseLength flags format
      (flags, precision, args, format)

theorem skip_length (c : Char) (format : List UInt8) :
    (skip c format).2.length ≤ format.length := by
  unfold skip
  split
  · exact le_rfl
  · split <;> simp

theorem readNumber_length (wrap : Int → Int) (format : List UInt8) (n : Int) :
    (readNumber wrap format n).2.length ≤ format.length := by
  induction format generalizing n with
  | nil => exact le_rfl
  | cons c format ih =>
      rw [readNumber]
      split
      · exact (ih _).trans (Nat.le_succ _)
      · exact le_rfl

theorem parseFlags_length (format : List UInt8) :
    (parseFlags format).2.length ≤ format.length :=
  (skip_length _ _).trans <| (skip_length _ _).trans <| (skip_length _ _).trans <|
    (skip_length _ _).trans (skip_length _ _)

theorem parseLength_length (flags : Flags) (format : List UInt8) :
    (parseLength flags format).2.length ≤ format.length := by
  have h := skip_length 'h' format
  have l := (skip_length 'l' _).trans h
  simp only [parseLength]
  split_ifs
  · exact h
  · exact (skip_length _ _).trans l
  · exact (skip_length _ _).trans l
  · exact (skip_length _ _).trans l
  · exact (skip_length _ _).trans l

theorem bind_eq_ok {α β : Type} {r : Except Fault α} {f : α → Except Fault β} {b : β} :
    r.bind f = .ok b ↔ ∃ a, r = .ok a ∧ f a = .ok b := by
  cases r <;> simp [Except.bind]

theorem map_eq_ok {α β : Type} {r : Except Fault α} {f : α → β} {b : β} :
    r.map f = .ok b ↔ ∃ a, r = .ok a ∧ f a = b := by
  cases r <;> simp [Except.map]

theorem parseWidth_length {format format' : List UInt8} {args args' : List Arg} {width : Int}
    (read : parseWidth format args = .ok (width, format', args')) :
    format'.length ≤ format.length := by
  have star := skip_length '*' format
  simp only [parseWidth] at read
  split at read
  · obtain ⟨_, -, same⟩ := map_eq_ok.mp read
    cases same
    exact star
  · cases read
    exact (readNumber_length _ _ _).trans star

theorem parsePrecision_length {format format' : List UInt8} {args args' : List Arg}
    {precision : Int} (read : parsePrecision format args = .ok (precision, format', args')) :
    format'.length ≤ format.length := by
  have dot := skip_length '.' format
  have star := (skip_length '*' _).trans dot
  simp only [parsePrecision] at read
  split at read
  · split at read
    · obtain ⟨_, -, same⟩ := map_eq_ok.mp read
      cases same
      exact star
    · cases read
      exact (readNumber_length _ _ _).trans star
  · cases read
    exact dot

theorem toSpecifier_length {format format' : List UInt8} {args args' : List Arg} {flags : Flags}
    {precision : Int} (read : toSpecifier format args = .ok (flags, precision, args', format')) :
    format'.length ≤ format.length := by
  obtain ⟨⟨_, format₁, _⟩, width, read⟩ := bind_eq_ok.mp read
  obtain ⟨⟨_, format₂, _⟩, dot, same⟩ := map_eq_ok.mp read
  have length := parseLength_length (parseFlags format).1 format₂
  obtain ⟨-, -, -, rfl⟩ : _ ∧ _ ∧ _ ∧ _ = format' := by simpa using same
  exact length.trans <| (parsePrecision_length dot).trans <| (parseWidth_length width).trans
    (parseFlags_length format)

/-! ### What a pass can fail with -/

/-- The next argument is taken, or there is none. -/
def Takes {α : Type} (args : List Arg) (r : Except Fault (α × List Arg)) : Prop :=
  r = .error .noArg ∨ ∃ a, r = .ok (a, args.tail)

theorem vaInt_takes (args : List Arg) : Takes args (vaInt args) := by
  unfold vaInt
  split
  exacts [.inr ⟨_, rfl⟩, .inr ⟨_, rfl⟩, .inl rfl]

theorem vaLong_takes (args : List Arg) : Takes args (vaLong args) := by
  unfold vaLong
  split
  exacts [.inr ⟨_, rfl⟩, .inr ⟨_, rfl⟩, .inr ⟨_, rfl⟩, .inl rfl]

theorem vaLongLong_takes (args : List Arg) : Takes args (vaLongLong args) := by
  unfold vaLongLong
  split
  exacts [.inr ⟨_, rfl⟩, .inr ⟨_, rfl⟩, .inl rfl]

theorem Takes.map {α β : Type} {args : List Arg} {r : Except Fault (α × List Arg)}
    (first : Takes args r) (f : α → β) : Takes args (r.map fun (a, args) => (f a, args)) := by
  rcases first with none | ⟨a, found⟩
  · exact .inl (by rw [none]; rfl)
  · exact .inr ⟨f a, by rw [found]; rfl⟩

/-- `va_arg` for `d` and `i`. -/
def vaSigned (flags : Flags) : List Arg → Except Fault (Int × List Arg) :=
  if flags.short then vaInt else if flags.long then vaLong
    else if flags.longlong then vaLongLong else vaInt

/-- `va_arg` for `x`, `p` and `X`. -/
def vaUnsigned (isLong : Bool) (flags : Flags) (args : List Arg) :
    Except Fault (Int × List Arg) :=
  if flags.short then (vaInt args).map fun (v, args) => (v % 2 ^ 16, args)
  else if isLong then vaLong args
  else if flags.longlong then vaLongLong args
  else (vaInt args).map fun (v, args) => (wrapUInt v, args)

/-- What a specifier of an integer prints: the base, the letter of its digits, and the value. -/
def vaInteger (c : UInt8) (flags : Flags) (args : List Arg) :
    Option (Nat × UInt8 × Except Fault (Int × List Arg)) :=
  if c = ch 'd' ∨ c = ch 'i' then some (10, ch 'a', vaSigned flags args)
  else if c = ch 'x' ∨ c = ch 'p' then
    some (16, ch 'a', vaUnsigned (flags.long ∨ c = ch 'p') flags args)
  else if c = ch 'X' then some (16, ch 'A', vaUnsigned flags.long flags args)
  else none

theorem vaSigned_takes (flags : Flags) (args : List Arg) : Takes args (vaSigned flags args) := by
  unfold vaSigned
  split_ifs
  exacts [vaInt_takes args, vaLong_takes args, vaLongLong_takes args, vaInt_takes args]

theorem vaUnsigned_takes (isLong : Bool) (flags : Flags) (args : List Arg) :
    Takes args (vaUnsigned isLong flags args) := by
  unfold vaUnsigned
  split_ifs
  exacts [(vaInt_takes args).map (· % 2 ^ 16), vaLong_takes args, vaLongLong_takes args,
    (vaInt_takes args).map wrapUInt]

theorem vaInteger_takes {c : UInt8} {flags : Flags} {args : List Arg} {base : Nat}
    {cbase : UInt8} {va : Except Fault (Int × List Arg)}
    (asked : vaInteger c flags args = some (base, cbase, va)) :
    Takes args va ∧ (base = 10 ∨ base = 16) := by
  unfold vaInteger at asked
  split_ifs at asked <;> cases asked
  · exact ⟨vaSigned_takes flags args, .inl rfl⟩
  · exact ⟨vaUnsigned_takes _ flags args, .inr rfl⟩
  · exact ⟨vaUnsigned_takes _ flags args, .inr rfl⟩

/-- One character and its NUL, where the character may be a NUL itself. -/
theorem prints_char_isSome (c : UInt8) (width precision : Int) (flags : Flags)
    (stream : List UInt8) : (prints [c, 0] width precision flags stream).isSome :=
  prints_isSome [c] [] width precision flags stream

theorem printi_isSome (val : Int) (base : Nat) (sign width precision : Int) (flags : Flags)
    (cbase : UInt8) (stream : List UInt8) (two : 2 ≤ base) :
    (printi val base sign width precision flags cbase stream).isSome := by
  rw [printi, printBuf_bytes val base sign precision flags cbase two]
  exact prints_isSome _ [] _ _ _ _

theorem specifyHex_eq (cbase : UInt8) (isLong : Bool) (flags : Flags) (width precision : Int)
    (args : List Arg) (stream : List UInt8) :
    specifyHex cbase isLong flags width precision args stream =
      (vaUnsigned isLong flags args).bind fun (v, args) =>
        printInt v 16 width precision flags cbase stream args := by
  unfold specifyHex vaUnsigned
  split_ifs
  · cases vaInt args <;> rfl
  · rfl
  · rfl
  · cases vaInt args <;> rfl

theorem specify_integer {c : UInt8} {flags : Flags} {args : List Arg} {base : Nat}
    {cbase : UInt8} {va : Except Fault (Int × List Arg)}
    (asked : vaInteger c flags args = some (base, cbase, va)) (width precision : Int)
    (stream : List UInt8) :
    specify c flags width precision args stream =
      va.bind fun (v, args) =>
        printInt v base (wrapInt width) precision flags cbase stream args := by
  have noChar : c ≠ ch 'c' := by
    rintro rfl
    cases asked
  have noString : c ≠ ch 's' := by
    rintro rfl
    cases asked
  unfold vaInteger at asked
  rw [specify, if_neg noChar, if_neg noString]
  split_ifs at asked with signed hex upper <;> cases asked
  · rw [if_pos signed]
    rfl
  · rw [if_neg signed, if_pos hex]
    exact specifyHex_eq ..
  · rw [if_neg signed, if_neg hex, if_pos upper]
    exact specifyHex_eq ..

/-- The characters that are specifiers. -/
def specifiers : List UInt8 := [ch 'c', ch 's', ch 'd', ch 'i', ch 'x', ch 'p', ch 'X']

/-- The arguments behind a specifier. -/
def argsAfter (c : UInt8) (args : List Arg) : List Arg := if c ∈ specifiers then args.tail else args

/-- If the specifier is one of an integer, the text of that integer fits into `print_buf`. -/
def Roomy (c : UInt8) (flags : Flags) (precision : Int) (args : List Arg) : Prop :=
  ∀ base cbase v args', vaInteger c flags args = some (base, cbase, .ok (v, args')) →
    Room v base 1 precision flags cbase

theorem printInt_ok {val : Int} {base : Nat} {precision : Int} {flags : Flags} {cbase : UInt8}
    (known : base = 10 ∨ base = 16) (room : Room val base 1 precision flags cbase) (width : Int)
    (stream : List UInt8) (args : List Arg) :
    printInt val base width precision flags cbase stream args =
      printed (printi val base 1 width precision flags cbase stream) args :=
  if_pos ((printBuf_inBounds_iff _ _ _ _ _ _ known).mpr room)

theorem printInt_outside {val : Int} {base : Nat} {precision : Int} {flags : Flags}
    {cbase : UInt8} (known : base = 10 ∨ base = 16)
    (full : ¬ Room val base 1 precision flags cbase) (width : Int) (stream : List UInt8)
    (args : List Arg) :
    printInt val base width precision flags cbase stream args = .error .outside :=
  if_neg (mt (printBuf_inBounds_iff _ _ _ _ _ _ known).mp full)

theorem printed_ok {out : Option Out} (whole : out.isSome) (args : List Arg) :
    ∃ o, printed out args = .ok (o, args) := by
  obtain ⟨o, found⟩ := Option.isSome_iff_exists.mp whole
  exact ⟨o, by rw [found]; rfl⟩

/-- A specifier of an integer takes its argument, and its text fits or not. -/
theorem specify_integer_cases {c : UInt8} {flags : Flags} {args : List Arg} {base : Nat}
    {cbase : UInt8} {va : Except Fault (Int × List Arg)}
    (asked : vaInteger c flags args = some (base, cbase, va)) (width precision : Int)
    (stream : List UInt8) :
    specify c flags width precision args stream = .error .noArg ∨
      (Roomy c flags precision args ∧
        ∃ o, specify c flags width precision args stream = .ok (o, args.tail)) ∨
      (¬ Roomy c flags precision args ∧
        specify c flags width precision args stream = .error .outside) := by
  obtain ⟨takes, known⟩ := vaInteger_takes asked
  rw [specify_integer asked]
  rcases takes with none | ⟨v, found⟩
  · exact .inl (by rw [none]; rfl)
  subst found
  have roomy : Roomy c flags precision args ↔ Room v base 1 precision flags cbase := by
    constructor
    · exact fun all => all base cbase v args.tail asked
    · intro room base' cbase' v' args' asked'
      rw [asked] at asked'
      cases asked'
      exact room
  rw [roomy]
  by_cases room : Room v base 1 precision flags cbase
  · refine .inr (.inl ⟨room, ?_⟩)
    simp only [Except.bind, printInt_ok known room]
    exact printed_ok (printi_isSome _ _ _ _ _ _ _ _ (by omega)) _
  · exact .inr (.inr ⟨room, printInt_outside known room _ _ _⟩)

theorem vaString_cases (args : List Arg) (width precision : Int) (flags : Flags)
    (stream : List UInt8) :
    Takes args ((vaString args).bind fun (str, args) =>
      printed (prints str width precision flags stream) args) := by
  unfold vaString
  split
  · refine .inr (printed_ok ?_ _)
    split <;> exact prints_isSome _ [] _ _ _ _
  · exact .inl rfl

/-- What can become of a specifier. -/
theorem specify_cases (c : UInt8) (flags : Flags) (width precision : Int) (args : List Arg)
    (stream : List UInt8) :
    specify c flags width precision args stream = .error .noArg ∨
      (Roomy c flags precision args ∧
        ∃ o, specify c flags width precision args stream = .ok (o, argsAfter c args)) ∨
      (¬ Roomy c flags precision args ∧
        specify c flags width precision args stream = .error .outside) := by
  cases asked : vaInteger c flags args with
  | some call =>
      obtain ⟨base, cbase, va⟩ := call
      have member : c ∈ specifiers := by
        unfold vaInteger at asked
        split_ifs at asked with signed hex upper
        · rcases signed with rfl | rfl <;> decide
        · rcases hex with rfl | rfl <;> decide
        · rw [upper]
          decide
      rw [argsAfter, if_pos member]
      exact specify_integer_cases asked width precision stream
  | none =>
      have roomy : Roomy c flags precision args := fun _ _ _ _ same => by
        rw [asked] at same
        cases same
      by_cases char : c = ch 'c'
      · subst char
        rcases vaInt_takes args with none | ⟨v, found⟩
        · exact .inl (by rw [specify, if_pos rfl, none]; rfl)
        · refine .inr (.inl ⟨roomy, ?_⟩)
          rw [specify, if_pos rfl, found]
          exact printed_ok (prints_char_isSome ..) _
      by_cases string : c = ch 's'
      · subst string
        rw [specify, if_neg char, if_pos rfl]
        exact (vaString_cases args _ precision flags stream).imp id fun taken =>
          .inl ⟨roomy, taken⟩
      · refine .inr (.inl ⟨roomy, ⟨stream, 0⟩, ?_⟩)
        unfold vaInteger at asked
        split_ifs at asked with signed hex upper
        have other : c ∉ specifiers := by
          intro member
          have letters : c = ch 'c' ∨ c = ch 's' ∨ c = ch 'd' ∨ c = ch 'i' ∨ c = ch 'x' ∨
              c = ch 'p' ∨ c = ch 'X' := by simpa [specifiers] using member
          tauto
        rw [specify, if_neg char, if_neg string, if_neg signed, if_neg hex, if_neg upper,
          argsAfter, if_neg other]

theorem parseWidth_cases (format : List UInt8) (args : List Arg) :
    parseWidth format args = .error .noArg ∨ ∃ r, parseWidth format args = .ok r := by
  simp only [parseWidth]
  split
  · rcases vaInt_takes args with none | ⟨v, found⟩
    · exact .inl (by rw [none]; rfl)
    · exact .inr ⟨_, by rw [found]; rfl⟩
  · exact .inr ⟨_, rfl⟩

theorem parsePrecision_cases (format : List UInt8) (args : List Arg) :
    parsePrecision format args = .error .noArg ∨ ∃ r, parsePrecision format args = .ok r := by
  simp only [parsePrecision]
  split
  · split
    · rcases vaInt_takes args with none | ⟨v, found⟩
      · exact .inl (by rw [none]; rfl)
      · exact .inr ⟨_, by rw [found]; rfl⟩
    · exact .inr ⟨_, rfl⟩
  · exact .inr ⟨_, rfl⟩

theorem printit_ok (c : UInt8) (s : State) : ∃ s', printit c s = .ok s' := by
  obtain ⟨o, found⟩ := Option.isSome_iff_exists.mp (prints_char_isSome c 0 1 Flags.none s.stream)
  exact ⟨s.add (o, s.args), by rw [printit, found]; rfl⟩

/-- A character takes no argument. -/
theorem printit_args {c : UInt8} {s s' : State} (out : printit c s = .ok s') :
    s'.args = s.args := by
  obtain ⟨⟨o, args⟩, put, rfl⟩ := map_eq_ok.mp out
  unfold printed at put
  split at put <;> cases put
  rfl

/-- What a directive does: it is read up to its specifier, which is the NUL behind the end, or
has no room for its text, or is passed. -/
theorem directive_cases {format : List UInt8} (s : State) (single : (skip '%' format).1 = false) :
    directive format s = .error .noArg ∨
      ∃ flags precision args spec,
        toSpecifier format s.args = .ok (flags, precision, args, spec) ∧
        ((spec = [] ∧ directive format s = .error .pastNul) ∨
          ∃ c rest, spec = c :: rest ∧
            ((Roomy c flags precision args ∧ ∃ s', directive format s = .ok (rest, s') ∧
                s'.args = argsAfter c args) ∨
              (¬ Roomy c flags precision args ∧ directive format s = .error .outside))) := by
  rcases parseWidth_cases (parseFlags format).2 s.args with none | ⟨⟨width, format₁, args₁⟩, read⟩
  · exact .inl (by simp [directive, single, none, Except.bind])
  rcases parsePrecision_cases format₁ args₁ with none | ⟨⟨precision, format₂, args₂⟩, read'⟩
  · exact .inl (by simp [directive, single, read, none, Except.bind])
  have found : toSpecifier format s.args =
      .ok ((parseLength (parseFlags format).1 format₂).1, precision, args₂,
        (parseLength (parseFlags format).1 format₂).2) := by
    simp [toSpecifier, read, read', Except.bind, Except.map]
  cases behind : (parseLength (parseFlags format).1 format₂).2 with
  | nil =>
      refine .inr ⟨_, _, _, _, found, .inl ⟨behind, ?_⟩⟩
      simp [directive, single, read, read', Except.bind, behind]
  | cons c rest =>
      have called : directive format s =
          (specify c (parseLength (parseFlags format).1 format₂).1 width precision args₂
            s.stream).map fun out => (rest, s.add out) := by
        simp [directive, single, read, read', Except.bind, behind]
      rw [called]
      rcases specify_cases c (parseLength (parseFlags format).1 format₂).1 width precision args₂
        s.stream with none | ⟨room, o, done⟩ | ⟨full, out⟩
      · exact .inl (by rw [none]; rfl)
      · exact .inr ⟨_, _, _, _, found, .inr ⟨c, rest, behind, .inl ⟨room,
          s.add (o, argsAfter c args₂), by rw [done]; rfl, rfl⟩⟩⟩
      · exact .inr ⟨_, _, _, _, found, .inr ⟨c, rest, behind, .inr ⟨full, by rw [out]; rfl⟩⟩⟩

theorem skip_percent_cons {format : List UInt8} (double : (skip '%' format).1 = true) :
    ∃ rest, format = ch '%' :: rest := by
  cases format with
  | nil => cases double
  | cons c rest =>
      refine ⟨rest, ?_⟩
      simp only [skip] at double
      split at double
      · rename_i same
        rw [same]
      · cases double

/-- Two percent signs are one character. -/
theorem directive_percent (rest : List UInt8) (s : State) :
    directive (ch '%' :: rest) s = (printit (ch '%') s).map fun s => (rest, s) := rfl

/-- A directive that is passed moves the pointer on. -/
theorem directive_length {format rest : List UInt8} {s s' : State}
    (done : directive format s = .ok (rest, s')) : rest.length ≤ format.length := by
  cases double : (skip '%' format).1 with
  | true =>
      obtain ⟨rest', rfl⟩ := skip_percent_cons double
      rw [directive_percent] at done
      obtain ⟨_, -, same⟩ := map_eq_ok.mp done
      cases same
      exact Nat.le_succ _
  | false =>
      rcases directive_cases s double with none | ⟨flags, precision, args, spec, read,
        ⟨-, past⟩ | ⟨c, rest', rfl, ⟨-, s'', passed, -⟩ | ⟨-, out⟩⟩⟩
      · rw [none] at done
        cases done
      · rw [past] at done
        cases done
      · rw [passed] at done
        cases done
        exact (Nat.le_succ _).trans (toSpecifier_length read)
      · rw [out] at done
        cases done

/-- More fuel than the format has bytes changes nothing. -/
theorem loop_fuel (fuel fuel' : Nat) (format : List UInt8) (s : State)
    (enough : format.length < fuel) (enough' : format.length < fuel') :
    loop fuel format s = loop fuel' format s := by
  induction fuel generalizing fuel' format s with
  | zero => omega
  | succ fuel ih =>
      cases fuel' with
      | zero => omega
      | succ fuel' =>
          cases format with
          | nil => rfl
          | cons c format =>
              rw [List.length_cons] at enough enough'
              rw [loop, loop]
              split_ifs
              · rfl
              · cases done : directive format s with
                | error e => rfl
                | ok found =>
                    obtain ⟨rest, s'⟩ := found
                    have short := directive_length done
                    exact ih fuel' rest s' (by omega) (by omega)
              · obtain ⟨s', out⟩ := printit_ok c s
                rw [out]
                exact ih fuel' format s' (by omega) (by omega)

/-- The loop from a state on, with enough fuel. -/
def run (format : List UInt8) (s : State) : Except Fault State := loop (format.length + 1) format s

theorem run_nul (behind : List UInt8) (s : State) : run (0 :: behind) s = .ok s := rfl

theorem run_literal {c : UInt8} (format : List UInt8) (s : State) (more : c ≠ 0)
    (plain : c ≠ ch '%') : run (c :: format) s = (printit c s).bind (run format) := by
  rw [run, loop, if_neg more, if_neg plain]
  rfl

theorem run_directive (format : List UInt8) (s : State) :
    run (ch '%' :: format) s = (directive format s).bind fun (format, s) => run format s := by
  rw [run, loop, if_neg (by decide), if_pos rfl]
  cases done : directive format s with
  | error e => rfl
  | ok found =>
      have short := directive_length done
      exact loop_fuel _ _ found.1 found.2 (by simpa using Nat.lt_succ_of_le short)
        (Nat.lt_succ_self _)

/-! ### Formats that are read to their NUL -/

/-- Every directive has its specifier before the NUL: behind the flags, the width, the precision
and the length there is another character. The text of every integer fits into `print_buf`. -/
inductive Safe : List UInt8 → List Arg → Prop
  | nul (behind : List UInt8) (args : List Arg) : Safe (0 :: behind) args
  | literal (c : UInt8) (format : List UInt8) (args : List Arg) (plain : c ≠ ch '%')
      (more : Safe format args) : Safe (c :: format) args
  | percent (format : List UInt8) (args : List Arg) (more : Safe format args) :
      Safe (ch '%' :: ch '%' :: format) args
  | directive (format : List UInt8) (args : List Arg) (flags : Flags) (precision : Int)
      (args' : List Arg) (c : UInt8) (rest : List UInt8) (single : (skip '%' format).1 = false)
      (read : toSpecifier format args = .ok (flags, precision, args', c :: rest))
      (room : Roomy c flags precision args') (more : Safe rest (argsAfter c args')) :
      Safe (ch '%' :: format) args

theorem safe_nil (args : List Arg) : ¬ Safe [] args := by
  intro none
  cases none

theorem safe_literal {c : UInt8} {format : List UInt8} {args : List Arg} (more : c ≠ 0)
    (plain : c ≠ ch '%') : Safe (c :: format) args ↔ Safe format args := by
  constructor
  · intro safe
    cases safe with
    | nul => exact absurd rfl more
    | literal _ _ _ _ later => exact later
    | percent => exact absurd rfl plain
    | directive => exact absurd rfl plain
  · exact .literal c format args plain

theorem safe_percent {format : List UInt8} {args : List Arg} :
    Safe (ch '%' :: ch '%' :: format) args ↔ Safe format args := by
  constructor
  · intro safe
    cases safe with
    | literal _ _ _ plain => exact absurd rfl plain
    | percent _ _ later => exact later
    | directive _ _ _ _ _ _ _ single => exact absurd single (by simp [skip])
  · exact .percent format args

theorem safe_directive {format spec : List UInt8} {args args' : List Arg} {flags : Flags}
    {precision : Int} (single : (skip '%' format).1 = false)
    (read : toSpecifier format args = .ok (flags, precision, args', spec)) :
    Safe (ch '%' :: format) args ↔
      ∃ c rest, spec = c :: rest ∧ Roomy c flags precision args' ∧
        Safe rest (argsAfter c args') := by
  constructor
  · intro safe
    cases safe with
    | literal _ _ _ plain => exact absurd rfl plain
    | percent => exact absurd single (by simp [skip])
    | directive _ _ flags' precision' args'' c rest _ read' room later =>
        rw [read] at read'
        cases read'
        exact ⟨c, rest, rfl, room, later⟩
  · rintro ⟨c, rest, rfl, room, later⟩
    exact .directive format args flags precision args' c rest single read room later

/-- Each pass of the loop keeps the equivalence, by induction on the bytes that are left. -/
theorem run_ok_iff (format : List UInt8) (s : State) (supplied : run format s ≠ .error .noArg) :
    (∃ s', run format s = .ok s') ↔ Safe format s.args := by
  induction size : format.length using Nat.strong_induction_on generalizing format s with
  | _ n ih =>
      subst size
      cases format with
      | nil => exact iff_of_false (fun ⟨_, same⟩ => by cases same) (safe_nil s.args)
      | cons c format =>
          by_cases last : c = 0
          · rw [last]
            exact iff_of_true ⟨s, run_nul format s⟩ (.nul format s.args)
          by_cases percent : c = ch '%'
          · subst percent
            cases double : (skip '%' format).1 with
            | true =>
                obtain ⟨rest, rfl⟩ := skip_percent_cons double
                obtain ⟨s', out⟩ := printit_ok (ch '%') s
                have passed : run (ch '%' :: ch '%' :: rest) s = run rest s' := by
                  rw [run_directive, directive_percent, out]
                  rfl
                rw [passed] at supplied ⊢
                rw [safe_percent, ← printit_args out]
                exact ih rest.length (by simp) rest s' supplied rfl
            | false =>
                rw [run_directive] at supplied ⊢
                rcases directive_cases s double with none | ⟨flags, precision, args, spec, read,
                  cases⟩
                · exact absurd (by rw [none]; rfl) supplied
                rw [safe_directive double read]
                rcases cases with ⟨rfl, past⟩ | ⟨c, rest, rfl, ⟨room, s', passed, left⟩ |
                  ⟨full, out⟩⟩
                · rw [past]
                  exact iff_of_false (fun ⟨_, same⟩ => by cases same)
                    (fun ⟨_, _, same, _⟩ => by cases same)
                · have short := directive_length passed
                  rw [passed] at supplied ⊢
                  refine (ih rest.length (Nat.lt_succ_of_le short) rest s' supplied rfl).trans ?_
                  rw [left]
                  constructor
                  · exact fun safe => ⟨c, rest, rfl, room, safe⟩
                  · rintro ⟨c', rest', same, -, safe⟩
                    cases same
                    exact safe
                · rw [out]
                  refine iff_of_false (fun ⟨_, same⟩ => by cases same) ?_
                  rintro ⟨c', rest', same, room, -⟩
                  cases same
                  exact full room
          · obtain ⟨s', out⟩ := printit_ok c s
            rw [run_literal format s last percent, out] at supplied ⊢
            rw [safe_literal last percent, ← printit_args out]
            exact ih format.length (Nat.lt_succ_self _) format s' supplied rfl

/-- The arguments do not run out. -/
def Enough (format : CStr) (args : List Arg) : Prop :=
  vfprintf (format.bytes ++ [0]) args ≠ .error .noArg

/-- `vfprintf` returns, reads nothing behind the NUL of its format and writes nothing outside of
`print_buf`, exactly where every directive is whole and every integer has room. -/
theorem vfprintf_ok_iff (format : CStr) (args : List Arg) (enough : Enough format args) :
    (∃ s, vfprintf (format.bytes ++ [0]) args = .ok s) ↔ Safe (format.bytes ++ [0]) args :=
  run_ok_iff _ _ enough

/-- A directive with a width from the arguments and a precision, and a percent sign. -/
theorem vfprintf_ok_iff_sample :
    (∃ s, vfprintf (ascii "%*.2d%%" ++ [0]) [.int 3, .int 7] = .ok s) ↔
      Safe (ascii "%*.2d%%" ++ [0]) [.int 3, .int 7] := by
  have enough : Enough ⟨ascii "%*.2d%%", by decide⟩ [.int 3, .int 7] :=
    fun none => absurd (congrArg Except.toBool none) (by decide +kernel)
  exact vfprintf_ok_iff ⟨ascii "%*.2d%%", by decide⟩ [.int 3, .int 7] enough

/-- A percent sign at the end: the byte behind the NUL is read. -/
theorem exists_pastNul :
    ∃ (format : CStr) (args : List Arg), format.bytes = ascii "%" ∧
      vfprintf (format.bytes ++ [0]) args = .error .pastNul :=
  ⟨⟨ascii "%", by decide⟩, [], rfl, rfl⟩

end EBBLib.Stdio
