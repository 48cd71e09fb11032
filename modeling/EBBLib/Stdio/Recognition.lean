import EBBLib.Stdio.Directives

/-!
# How `vfprintf` reads a conversion

Each stage of a directive stops at the first byte that is not its own. A conversion whose flags
are in order is read up to its letter.
-/

namespace EBBLib.Stdio

open StartInfo (CStr ascii wrapInt)

/-- A number as it arrives in a variable of type `int`. -/
def Number.value : Number → Int
  | .digits ds => wrapInt (decimal ds)
  | .star v => v.toInt

/-- The flags that are there, whatever their order, and the length. -/
def flagsOf (fs : List FlagChar) (length : Length) : Flags where
  justLeft := .minus ∈ fs
  positiveSign := .plus ∈ fs
  noSignSpace := .space ∈ fs
  poundFlag := .pound ∈ fs
  padWithZeroes := .zero ∈ fs
  short := length = .h
  long := length = .l
  longlong := length = .ll

/-! ### The flags -/

theorem skip_hit (c : Char) (rest : List UInt8) : skip c (ch c :: rest) = (true, rest) := if_pos rfl

theorem skip_miss {c : Char} {x : UInt8} (rest : List UInt8) (other : x ≠ ch c) :
    skip c (x :: rest) = (false, x :: rest) := if_neg other

/-- `skip` on flags. -/
def dropHead (f : FlagChar) : List FlagChar → List FlagChar
  | [] => []
  | g :: fs => if g = f then fs else g :: fs

theorem flagChar_inj {f g : FlagChar} (same : ch f.char = ch g.char) : f = g := by
  cases f <;> cases g <;> first | rfl | exact absurd same (by decide)

theorem skip_flags (f : FlagChar) (fs : List FlagChar) (x : UInt8) (rest : List UInt8)
    (other : x ≠ ch f.char) :
    skip f.char (flagText fs ++ x :: rest) =
      (decide (fs.head? = some f), flagText (dropHead f fs) ++ x :: rest) := by
  cases fs with
  | nil => exact skip_miss rest other
  | cons g fs =>
      by_cases same : g = f
      · simp [flagText, dropHead, same, skip_hit]
      · have miss : ch g.char ≠ ch f.char := fun equal => same (flagChar_inj equal)
        simp [flagText, dropHead, same, skip_miss _ miss]

/-- What is left of the flags when `vfprintf` has looked for each of them. -/
def leftover (fs : List FlagChar) : List FlagChar :=
  dropHead .zero (dropHead .pound (dropHead .space (dropHead .plus (dropHead .minus fs))))

/-- The flags that `vfprintf` finds. -/
def found (fs : List FlagChar) : Flags :=
  let fs₁ := dropHead .minus fs
  let fs₂ := dropHead .plus fs₁
  let fs₃ := dropHead .space fs₂
  let fs₄ := dropHead .pound fs₃
  { Flags.none with
    justLeft := fs.head? = some .minus
    positiveSign := fs₁.head? = some .plus
    noSignSpace := fs₂.head? = some .space
    poundFlag := fs₃.head? = some .pound
    padWithZeroes := fs₄.head? = some .zero }

theorem parseFlags_text (fs : List FlagChar) (x : UInt8) (rest : List UInt8)
    (other : ∀ f : FlagChar, x ≠ ch f.char) :
    parseFlags (flagText fs ++ x :: rest) = (found fs, flagText (leftover fs) ++ x :: rest) := by
  have minus (fs : List FlagChar) := skip_flags .minus fs x rest (other .minus)
  have plus (fs : List FlagChar) := skip_flags .plus fs x rest (other .plus)
  have space (fs : List FlagChar) := skip_flags .space fs x rest (other .space)
  have pound (fs : List FlagChar) := skip_flags .pound fs x rest (other .pound)
  have zero (fs : List FlagChar) := skip_flags .zero fs x rest (other .zero)
  simp only [FlagChar.char] at minus plus space pound zero
  simp only [parseFlags, minus, plus, space, pound, zero, found, leftover]

/-- The flags are in order, and from a place on. -/
def Ordered (from' : Nat) (fs : List FlagChar) : Prop :=
  fs.Pairwise (fun f g => f.rank < g.rank ∨ f = .zero ∧ g = .zero) ∧ ∀ f ∈ fs, from' ≤ f.rank

theorem rank_inj {f g : FlagChar} (same : f.rank = g.rank) : f = g := by
  cases f <;> cases g <;> first | rfl | exact absurd same (by decide)

/-- Looking for a flag other than the zero. -/
theorem ordered_dropHead {f : FlagChar} {fs : List FlagChar} (other : f ≠ .zero) :
    Ordered (f.rank + 1) (dropHead f fs) ↔ Ordered f.rank fs := by
  cases fs with
  | nil => simp [Ordered, dropHead]
  | cons g fs =>
      by_cases same : g = f
      · subst same
        simp only [Ordered, dropHead, if_true, List.pairwise_cons, List.forall_mem_cons, le_refl,
          true_and]
        constructor
        · rintro ⟨sorted, later⟩
          exact ⟨⟨fun h mem => .inl (later h mem), sorted⟩, fun h mem => (Nat.le_succ _).trans
            (later h mem)⟩
        · rintro ⟨⟨first, sorted⟩, -⟩
          refine ⟨sorted, fun h mem => ?_⟩
          rcases first h mem with less | ⟨zero, -⟩
          exacts [less, absurd zero other]
      · simp only [Ordered, dropHead, if_neg same, List.pairwise_cons, List.forall_mem_cons]
        constructor
        · rintro ⟨sorted, first, later⟩
          exact ⟨sorted, (Nat.le_succ _).trans first, fun h mem => (Nat.le_succ _).trans
            (later h mem)⟩
        · rintro ⟨⟨less, sorted⟩, first, -⟩
          have next : f.rank + 1 ≤ g.rank :=
            Nat.lt_of_le_of_ne first fun equal => same (rank_inj equal.symm)
          refine ⟨⟨less, sorted⟩, next, fun h mem => ?_⟩
          rcases less h mem with above | ⟨zero, zero'⟩
          · exact next.trans above.le
          · rw [zero']
            rwa [zero] at next

theorem ordered_zeroes {fs : List FlagChar} : Ordered 4 fs ↔ ∀ f ∈ fs, f = .zero := by
  constructor
  · intro ordered f mem
    have last := ordered.2 f mem
    cases f <;> first | rfl | exact absurd last (by decide)
  · intro zeroes
    refine ⟨?_, fun f mem => by rw [zeroes f mem]; exact le_rfl⟩
    exact List.pairwise_of_forall_mem_list fun f mem g mem' => .inr ⟨zeroes f mem, zeroes g mem'⟩

theorem ordered_before_zero {fs : List FlagChar} :
    Ordered 4 (dropHead .pound (dropHead .space (dropHead .plus (dropHead .minus fs)))) ↔
      Ordered 0 fs :=
  calc Ordered 4 (dropHead .pound (dropHead .space (dropHead .plus (dropHead .minus fs))))
      ↔ Ordered 3 (dropHead .space (dropHead .plus (dropHead .minus fs))) :=
        ordered_dropHead (f := .pound) (by decide)
    _ ↔ Ordered 2 (dropHead .plus (dropHead .minus fs)) :=
        ordered_dropHead (f := .space) (by decide)
    _ ↔ Ordered 1 (dropHead .minus fs) := ordered_dropHead (f := .plus) (by decide)
    _ ↔ Ordered 0 fs := ordered_dropHead (f := .minus) (by decide)

/-- Nothing but zeroes is left exactly when the flags are in order. -/
theorem ordered_leftover {fs : List FlagChar} :
    Ordered 0 fs ↔ ∀ f ∈ leftover fs, f = .zero := by
  rw [← ordered_before_zero, ordered_zeroes, leftover]
  cases dropHead .pound (dropHead .space (dropHead .plus (dropHead .minus fs))) with
  | nil => rfl
  | cons g fs =>
      by_cases same : g = .zero <;> simp [dropHead, same]

theorem head_iff_mem {f : FlagChar} {fs : List FlagChar} (ordered : Ordered f.rank fs) :
    fs.head? = some f ↔ f ∈ fs := by
  cases fs with
  | nil => simp
  | cons g fs =>
      simp only [List.head?_cons, Option.some.injEq, List.mem_cons]
      refine ⟨fun same => .inl same.symm, ?_⟩
      rintro (same | later)
      · exact same.symm
      · have least := ordered.2 g List.mem_cons_self
        rcases (List.pairwise_cons.mp ordered.1).1 f later with less | ⟨zero, zero'⟩
        · omega
        · rw [zero, zero']

theorem mem_dropHead {f g : FlagChar} {fs : List FlagChar} (other : g ≠ f) :
    g ∈ dropHead f fs ↔ g ∈ fs := by
  cases fs with
  | nil => rfl
  | cons h fs =>
      by_cases same : h = f
      · simp [dropHead, same, other]
      · simp [dropHead, same]

/-- Flags in order are all found. -/
theorem found_of_ordered {fs : List FlagChar} (ordered : Ordered 0 fs) :
    found fs = flagsOf fs .none := by
  have ordered₁ := (ordered_dropHead (f := .minus) (by decide)).mpr ordered
  have ordered₂ := (ordered_dropHead (f := .plus) (by decide)).mpr ordered₁
  have ordered₃ := (ordered_dropHead (f := .space) (by decide)).mpr ordered₂
  have ordered₄ := (ordered_dropHead (f := .pound) (by decide)).mpr ordered₃
  have minus := head_iff_mem (f := .minus) ordered
  have plus := head_iff_mem (f := .plus) ordered₁
  have space := head_iff_mem (f := .space) ordered₂
  have pound := head_iff_mem (f := .pound) ordered₃
  have zero := head_iff_mem (f := .zero) ordered₄
  simp only [mem_dropHead, ne_eq, reduceCtorEq, not_false_eq_true] at plus space pound zero
  simp [found, flagsOf, minus, plus, space, pound, zero, Flags.none]

theorem count_dropHead {f : FlagChar} (other : f ≠ .zero) (fs : List FlagChar) :
    (dropHead f fs).count .zero = fs.count .zero := by
  cases fs with
  | nil => rfl
  | cons g fs =>
      by_cases same : g = f
      · simp [dropHead, same, other]
      · simp [dropHead, same]

/-- What is left of flags in order: the zeroes but the first. -/
theorem leftover_of_ordered {fs : List FlagChar} (ordered : Ordered 0 fs) :
    leftover fs = List.replicate (fs.count .zero - 1) .zero := by
  have zeroes := ordered_zeroes.mp (ordered_before_zero.mpr ordered)
  have number : (dropHead .pound (dropHead .space (dropHead .plus
      (dropHead .minus fs)))).count .zero = fs.count .zero := by
    simp only [count_dropHead, ne_eq, reduceCtorEq, not_false_eq_true]
  have all := List.eq_replicate_of_mem zeroes
  rw [leftover, ← number]
  rw [all]
  generalize (dropHead .pound (dropHead .space (dropHead .plus (dropHead .minus fs)))).length = n
  cases n with
  | zero => rfl
  | succ n => simp [List.replicate_succ, dropHead]

/-! ### The numbers -/

theorem isDigit_digitByte (d : Fin 10) : isDigit (digitByte d) = true := by
  revert d
  decide

theorem digitByte_ne_star (d : Fin 10) : digitByte d ≠ ch '*' := by
  revert d
  decide

theorem digitByte_value (d : Fin 10) : ((digitByte d).toNat : Int) - (ch '0').toNat = d := by
  revert d
  decide

theorem readNumber_digits (wrap : Int → Int) (ds : List (Fin 10)) (x : UInt8)
    (rest : List UInt8) (n : Int) (stop : isDigit x = false) :
    readNumber wrap (ds.map digitByte ++ x :: rest) n =
      (ds.foldl (fun n (d : Fin 10) => wrap (wrap (n * 10) + d)) n, x :: rest) := by
  induction ds generalizing n with
  | nil => simp [readNumber, stop]
  | cons d ds ih =>
      rw [List.map_cons, List.cons_append, readNumber, if_pos (isDigit_digitByte d), ih,
        digitByte_value]
      rfl

/-- A wrapping that later steps do not see. -/
theorem foldl_wrap {wrap : Int → Int}
    (step : ∀ (m : Int) (d : Fin 10), wrap (wrap (wrap m * 10) + d) = wrap (m * 10 + d))
    (ds : List (Fin 10)) (m : Nat) :
    ds.foldl (fun n (d : Fin 10) => wrap (wrap (n * 10) + d)) (wrap m) =
      wrap (ds.foldl (fun n (d : Fin 10) => n * 10 + d) m : Nat) := by
  induction ds generalizing m with
  | nil => rfl
  | cons d ds ih =>
      rw [List.foldl_cons, List.foldl_cons, step]
      exact_mod_cast ih (m * 10 + d)

theorem wrapInt_step (m : Int) (d : Fin 10) :
    wrapInt (wrapInt (wrapInt m * 10) + d) = wrapInt (m * 10 + d) := by
  simp only [wrapInt]
  omega

theorem wrapUInt_step (m : Int) (d : Fin 10) :
    wrapUInt (wrapUInt (wrapUInt m * 10) + d) = wrapUInt (m * 10 + d) := by
  simp only [wrapUInt]
  omega

theorem readNumber_wrapInt (ds : List (Fin 10)) (x : UInt8) (rest : List UInt8)
    (stop : isDigit x = false) :
    readNumber wrapInt (ds.map digitByte ++ x :: rest) 0 = (wrapInt (decimal ds), x :: rest) := by
  rw [readNumber_digits wrapInt ds x rest 0 stop]
  exact congrArg (·, x :: rest) (foldl_wrap wrapInt_step ds 0)

theorem readNumber_wrapUInt (ds : List (Fin 10)) (x : UInt8) (rest : List UInt8)
    (stop : isDigit x = false) :
    readNumber wrapUInt (ds.map digitByte ++ x :: rest) 0 =
      (wrapUInt (decimal ds), x :: rest) := by
  rw [readNumber_digits wrapUInt ds x rest 0 stop]
  exact congrArg (·, x :: rest) (foldl_wrap wrapUInt_step ds 0)

/-! ### Behind the flags -/

/-- The text from the length on, and from the precision on. -/
def lengthTail (own : Own) (rest : List UInt8) : List UInt8 :=
  own.length.text ++ ch own.letter :: rest

def precisionTail (precision : Option Number) (own : Own) (rest : List UInt8) : List UInt8 :=
  precisionText precision ++ lengthTail own rest

theorem text_append (c : Conv) (rest : List UInt8) :
    c.text ++ rest =
      flagText c.flags ++ (c.width.text ++ precisionTail c.precision c.own rest) := by
  simp [Conv.text, precisionTail, lengthTail]

/-- A character that is not part of a number and ends the flags. -/
def Stops (x : UInt8) : Prop := isDigit x = false ∧ x ≠ ch '*' ∧ ∀ f : FlagChar, x ≠ ch f.char

instance (x : UInt8) : Decidable (Stops x) :=
  decidable_of_iff (isDigit x = false ∧ x ≠ ch '*' ∧
    ∀ f ∈ [FlagChar.minus, .plus, .space, .pound, .zero], x ≠ ch f.char) <| by
    refine and_congr_right fun _ => and_congr_right fun _ => ⟨fun all f => all f ?_, fun all f _ =>
      all f⟩
    cases f <;> decide

theorem letter_cases {P : Char → Prop} (d : P 'd') (i : P 'i') (u : P 'u') (x : P 'x')
    (X : P 'X') (p : P 'p') (c : P 'c') (s : P 's') (own : Own) : P own.letter := by
  cases own <;> assumption

theorem letter_stops (own : Own) : Stops (ch own.letter) ∧ ch own.letter ≠ ch '.' := by
  apply letter_cases (P := fun c => Stops (ch c) ∧ ch c ≠ ch '.') <;> decide

theorem lengthTail_cons (own : Own) (rest : List UInt8) :
    ∃ x t, lengthTail own rest = x :: t ∧ Stops x ∧ x ≠ ch '.' := by
  unfold lengthTail
  cases own.length with
  | none => exact ⟨_, _, rfl, letter_stops own⟩
  | h | l | ll => exact ⟨_, _, rfl, by decide, by decide⟩

theorem precisionTail_cons (precision : Option Number) (own : Own) (rest : List UInt8) :
    ∃ x t, precisionTail precision own rest = x :: t ∧ Stops x := by
  cases precision with
  | none =>
      obtain ⟨x, t, tail, stops, -⟩ := lengthTail_cons own rest
      exact ⟨x, t, tail, stops⟩
  | some n => exact ⟨ch '.', _, rfl, by decide⟩

/-- The flags with a length. -/
def Flags.withLength (flags : Flags) : Length → Flags
  | .none => flags
  | .h => { flags with short := true }
  | .l => { flags with long := true }
  | .ll => { flags with longlong := true }

theorem parseLength_text (flags : Flags) (own : Own) (rest : List UInt8) :
    parseLength flags (lengthTail own rest) =
      (flags.withLength own.length, ch own.letter :: rest) := by
  have other : ch own.letter ≠ ch 'h' ∧ ch own.letter ≠ ch 'l' ∧ ch own.letter ≠ ch 'L' := by
    apply letter_cases (P := fun c => ch c ≠ ch 'h' ∧ ch c ≠ ch 'l' ∧ ch c ≠ ch 'L') <;> decide
  obtain ⟨h, l, upper⟩ := other
  have lh : ch 'l' ≠ ch 'h' := by decide
  unfold lengthTail
  cases own.length with
  | none => simp [Length.text, parseLength, skip_miss, h, l, upper, Flags.withLength]
  | h => simp [Length.text, parseLength, skip_hit, Flags.withLength]
  | l => simp [Length.text, parseLength, skip_miss, skip_hit, lh, l, Flags.withLength]
  | ll => simp [Length.text, parseLength, skip_miss, skip_hit, lh, Flags.withLength]

/-- Digits, or nothing, are no star. -/
theorem skip_star_digits (ds : List (Fin 10)) (x : UInt8) (t : List UInt8) (star : x ≠ ch '*') :
    skip '*' (ds.map digitByte ++ x :: t) = (false, ds.map digitByte ++ x :: t) := by
  cases ds with
  | nil => exact skip_miss t star
  | cons d ds => exact skip_miss _ (digitByte_ne_star d)

/-- `va_arg` for a number, or its digits. -/
def takeNumber : Number → List Arg → Except Fault (Int × List Arg)
  | .digits ds, args => .ok (wrapInt (decimal ds), args)
  | .star _, args => vaInt args

theorem parsePrecision_text (precision : Option Number) (own : Own) (rest : List UInt8)
    (args : List Arg) :
    parsePrecision (precisionTail precision own rest) args =
      (precision.elim (.ok (-1, args)) (takeNumber · args)).map fun (p, args) =>
        (p, lengthTail own rest, args) := by
  obtain ⟨x, t, tail, ⟨stop, star, -⟩, dot⟩ := lengthTail_cons own rest
  unfold precisionTail
  rw [tail]
  cases precision with
  | none => simp [precisionText, parsePrecision, skip_miss, dot, Except.map]
  | some n =>
      cases n with
      | star v => simp [precisionText, Number.text, parsePrecision, skip_hit, takeNumber]
      | digits ds =>
          have read := readNumber_wrapInt ds x t stop
          simp [precisionText, Number.text, parsePrecision, skip_hit,
            skip_star_digits ds x t star, read, takeNumber, Except.map]

theorem decimal_zeroes (k : Nat) (ds : List (Fin 10)) :
    decimal (List.replicate k 0 ++ ds) = decimal ds := by
  have none : (List.replicate k 0).foldl (fun (n : Nat) (d : Fin 10) => n * 10 + d) 0 = 0 := by
    induction k with
    | zero => rfl
    | succ k ih => exact ih
  rw [decimal, List.foldl_append, none]
  rfl

/-- Zeroes that are left of the flags are read with the width. -/
theorem parseWidth_text (k : Nat) (width : Number) (precision : Option Number) (own : Own)
    (rest : List UInt8) (args : List Arg) (first : (∃ v, width = .star v) → k = 0) :
    parseWidth (List.replicate k (ch '0') ++ (width.text ++ precisionTail precision own rest))
      args = (takeNumber width args).map fun (w, args) =>
        (wrapUInt w, precisionTail precision own rest, args) := by
  obtain ⟨x, t, tail, stop, star, -⟩ := precisionTail_cons precision own rest
  rw [tail]
  cases width with
  | star v =>
      rw [first ⟨v, rfl⟩]
      simp [Number.text, parseWidth, skip_hit, takeNumber]
  | digits ds =>
      have digits : List.replicate k (ch '0') ++ (Number.text (.digits ds) ++ x :: t) =
          (List.replicate k 0 ++ ds).map digitByte ++ x :: t := by
        simp [Number.text, digitByte]
      have wrapped (n : Int) : wrapUInt (wrapInt n) = wrapUInt n := by
        simp only [wrapUInt, wrapInt]
        omega
      rw [digits]
      simp only [parseWidth, skip_star_digits _ x t star, readNumber_wrapUInt _ x t stop,
        decimal_zeroes, takeNumber, Except.map, wrapped]
      rfl

/-- The width ends the flags: it does not begin with a zero. -/
theorem widthTail_cons (c : Conv) (rest : List UInt8) :
    ∃ x t, c.width.text ++ precisionTail c.precision c.own rest = x :: t ∧
      ∀ f : FlagChar, x ≠ ch f.char := by
  obtain ⟨x, t, tail, -, -, noFlag⟩ := precisionTail_cons c.precision c.own rest
  cases width : c.width with
  | star v => exact ⟨ch '*', _, rfl, by intro f; cases f <;> decide⟩
  | digits ds =>
      cases ds with
      | nil => exact ⟨x, t, tail, noFlag⟩
      | cons d ds =>
          have nonzero : d ≠ 0 := fun zero => c.lead (d :: ds) width (by rw [zero]; rfl)
          have all : ∀ d : Fin 10, d ≠ 0 → ∀ f ∈ [FlagChar.minus, .plus, .space, .pound, .zero],
              digitByte d ≠ ch f.char := by decide
          exact ⟨digitByte d, _, rfl, fun f => all d nonzero f (by cases f <;> decide)⟩

/-! ### Directives -/

/-- No NUL and no percent sign. -/
def Plain (t : List UInt8) : Prop := ∀ x ∈ t, x ≠ 0 ∧ x ≠ ch '%'

theorem digits_plain (ds : List (Fin 10)) : Plain (ds.map digitByte) := by
  have all : ∀ d : Fin 10, digitByte d ≠ 0 ∧ digitByte d ≠ ch '%' := by decide
  intro x mem
  obtain ⟨d, -, rfl⟩ := List.mem_map.mp mem
  exact all d

theorem number_plain (n : Number) : Plain n.text := by
  cases n with
  | digits ds => exact digits_plain ds
  | star v => simp [Plain, Number.text, ch]

theorem Plain.append {t u : List UInt8} (first : Plain t) (next : Plain u) : Plain (t ++ u) :=
  fun x mem => (List.mem_append.mp mem).elim (first x) (next x)

theorem text_plain (c : Conv) : Plain c.text := by
  have flags : Plain (flagText c.flags) := by
    intro x mem
    obtain ⟨f, -, rfl⟩ := List.mem_map.mp mem
    cases f <;> decide
  have precision : Plain (precisionText c.precision) := by
    cases c.precision with
    | none => exact fun x none => absurd none List.not_mem_nil
    | some n => exact List.forall_mem_cons.mpr ⟨by decide, number_plain n⟩
  have length : Plain c.own.length.text := by
    cases c.own.length <;> simp [Plain, Length.text, ch]
  have letter : Plain [ch c.own.letter] := by
    refine List.forall_mem_singleton.mpr ?_
    apply letter_cases (P := fun c => ch c ≠ 0 ∧ ch c ≠ ch '%') <;> decide
  exact (((flags.append (number_plain c.width)).append precision).append length).append letter

theorem skip_percent {t : List UInt8} (rest : List UInt8) (plain : Plain t) (nonempty : t ≠ []) :
    skip '%' (t ++ rest) = (false, t ++ rest) := by
  cases t with
  | nil => exact absurd rfl nonempty
  | cons x t => exact skip_miss _ (plain x List.mem_cons_self).2

theorem text_ne_nil (c : Conv) : c.text ≠ [] := by simp [Conv.text]

theorem flagText_zeroes (k : Nat) :
    flagText (List.replicate k .zero) = List.replicate k (ch '0') := by
  simp [flagText, FlagChar.char]

theorem flagsOf_withLength (fs : List FlagChar) (length : Length) :
    (flagsOf fs .none).withLength length = flagsOf fs length := by
  cases length <;> simp [flagsOf, Flags.withLength]

/-- A conversion whose flags are in order. -/
theorem directive_text (c : Conv) (rest : List UInt8) (s : State) (good : c.InOrder) :
    directive (c.text ++ rest) s =
      (takeNumber c.width s.args).bind fun (w, args) =>
        (c.precision.elim (.ok (-1, args)) (takeNumber · args)).bind fun (p, args) =>
          (specify (ch c.own.letter) (flagsOf c.flags c.own.length) (wrapUInt w) p args
            s.stream).map fun out => (rest, s.add out) := by
  have ordered : Ordered 0 c.flags := ⟨good.1, fun _ _ => Nat.zero_le _⟩
  obtain ⟨x, t, tail, noFlag⟩ := widthTail_cons c rest
  have flags := parseFlags_text c.flags x t noFlag
  have first : (∃ v, c.width = .star v) → c.flags.count .zero - 1 = 0 := fun star => by
    have := good.2 star
    omega
  rw [directive, skip_percent rest (text_plain c) (text_ne_nil c), text_append, tail, flags,
    leftover_of_ordered ordered, found_of_ordered ordered, ← tail, flagText_zeroes]
  simp only [Bool.false_eq_true, if_false]
  rw [parseWidth_text _ c.width c.precision c.own rest s.args first]
  cases takeNumber c.width s.args with
  | error e => rfl
  | ok taken =>
      obtain ⟨w, args⟩ := taken
      simp only [Except.map, Except.bind, parsePrecision_text]
      cases c.precision.elim (.ok (-1, args)) (takeNumber · args) with
      | error e => rfl
      | ok taken => simp only [parseLength_text, flagsOf_withLength]

end EBBLib.Stdio
