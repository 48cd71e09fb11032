import EBBLib.Stdio.Texts

/-!
# Arguments that are not taken

A conversion never takes more arguments than it asks for. One with the letter `u`, or with
flags in another order than the one in which `vfprintf` looks for them, takes fewer: what is
behind a flag out of its place is copied like other characters. The run then ends with arguments
left.
-/

namespace EBBLib.Stdio

open StartInfo (CStr ascii wrapInt)

/-! ### How many arguments are taken -/

theorem argsAfter_length (c : UInt8) (args : List Arg) :
    args.length ≤ (argsAfter c args).length + 1 := by
  unfold argsAfter
  split
  · rw [List.length_tail]
    omega
  · exact Nat.le_succ _

theorem takeNumber_length {n : Number} {args args' : List Arg} {v : Int}
    (taken : takeNumber n args = .ok (v, args')) :
    args.length ≤ args'.length + n.args.length := by
  cases n with
  | digits ds =>
      obtain ⟨-, rfl⟩ := Prod.mk.inj (Except.ok.inj taken)
      exact Nat.le_add_right _ _
  | star w =>
      rcases vaInt_takes args with none | ⟨v', found⟩
      · exact absurd (none.symm.trans taken) (by simp)
      · cases found.symm.trans taken
        simp only [Number.args, List.length_tail, List.length_singleton]
        omega

theorem specify_args {c : UInt8} {flags : Flags} {width precision : Int} {args args' : List Arg}
    {stream : List UInt8} {o : Out}
    (done : specify c flags width precision args stream = .ok (o, args')) :
    args' = argsAfter c args := by
  rcases specify_cases c flags width precision args stream with none | ⟨-, o', passed⟩ | ⟨-, out⟩
  · exact absurd (none.symm.trans done) (by simp)
  · cases passed.symm.trans done
    rfl
  · exact absurd (out.symm.trans done) (by simp)

/-! ### Flags out of order -/

/-- The characters at which a directive with flags out of order ends. -/
def strays : List UInt8 := [ch '-', ch '+', ch ' ', ch '#', ch '*']

theorem stray_facts : ∀ x ∈ strays, isDigit x = false ∧ x ≠ ch '.' ∧ x ≠ ch 'h' ∧ x ≠ ch 'l' ∧
    x ≠ ch 'L' ∧ x ≠ ch 'c' ∧ x ≠ ch 's' ∧ x ≠ ch 'd' ∧ x ≠ ch 'i' ∧ x ≠ ch 'x' ∧ x ≠ ch 'p' ∧
    x ≠ ch 'X' := by
  decide +kernel

/-- A stray character is taken as the specifier, and skipped. -/
theorem stray_skipped {k : Nat} {x : UInt8} (t : List UInt8) (flags : Flags) (args : List Arg)
    (stream : List UInt8) (stray : x ∈ strays) (first : k = 0 → x ≠ ch '*') :
    parseWidth (List.replicate k (ch '0') ++ x :: t) args = .ok (0, x :: t, args) ∧
      parsePrecision (x :: t) args = .ok (-1, x :: t, args) ∧
      parseLength flags (x :: t) = (flags, x :: t) ∧
      specify x flags 0 (-1) args stream = .ok (⟨stream, 0⟩, args) := by
  obtain ⟨stop, dot, h, l, upper, c, s, d, i, x', p, X'⟩ := stray_facts x stray
  refine ⟨?_, ?_, ?_, ?_⟩
  · have noStar : skip '*' (List.replicate k (ch '0') ++ x :: t) =
        (false, List.replicate k (ch '0') ++ x :: t) := by
      cases k with
      | zero => exact skip_miss t (first rfl)
      | succ k => exact skip_miss _ (by decide)
    have digits : List.replicate k (ch '0') = (List.replicate k (0 : Fin 10)).map digitByte := by
      simp [digitByte]
    have zero : decimal (List.replicate k 0) = 0 :=
      (congrArg decimal (List.append_nil _)).symm.trans (decimal_zeroes k [])
    have read := readNumber_wrapUInt (List.replicate k 0) x t stop
    rw [zero, ← digits] at read
    simp [parseWidth, noStar, read, wrapUInt]
  · simp [parsePrecision, skip_miss _ dot]
  · simp [parseLength, skip_miss _ h, skip_miss _ l, skip_miss _ upper]
  · simp [specify, c, s, d, i, x', p, X']

/-- The first flag that is not a zero. -/
theorem split_zeroes {fs : List FlagChar} (other : ¬ ∀ f ∈ fs, f = .zero) :
    ∃ k f fs', fs = List.replicate k .zero ++ f :: fs' ∧ f ≠ .zero := by
  induction fs with
  | nil => exact absurd (fun _ none => absurd none List.not_mem_nil) other
  | cons g fs ih =>
      by_cases zero : g = .zero
      · have later : ¬ ∀ f ∈ fs, f = .zero := fun all =>
          other (List.forall_mem_cons.mpr ⟨zero, all⟩)
        obtain ⟨k, f, fs', split, nonzero⟩ := ih later
        exact ⟨k + 1, f, fs', by rw [split, zero]; rfl, nonzero⟩
      · exact ⟨0, g, fs, rfl, zero⟩

/-- A directive whose flags end at a stray character, behind some zeroes. -/
theorem directive_at_stray {t u : List UInt8} {flags : Flags} {k : Nat} {x : UInt8} (s : State)
    (noPercent : skip '%' t = (false, t))
    (parsed : parseFlags t = (flags, List.replicate k (ch '0') ++ x :: u)) (stray : x ∈ strays)
    (first : k = 0 → x ≠ ch '*') :
    directive t s = .ok (u, s.add (⟨s.stream, 0⟩, s.args)) := by
  obtain ⟨width, precision, length, out⟩ := stray_skipped u flags s.args s.stream stray first
  rw [directive, noPercent, parsed]
  simp only [Bool.false_eq_true, if_false]
  rw [width]
  simp only [Except.bind]
  rw [precision]
  simp only [length, out, Except.map]

/-- Nothing is taken, and what is left of the conversion is literal text. -/
theorem directive_stray (c : Conv) (rest : List UInt8) (s : State) (bad : ¬ c.InOrder) :
    ∃ t, Plain t ∧
      directive (c.text ++ rest) s = .ok (t ++ rest, s.add (⟨s.stream, 0⟩, s.args)) := by
  have noPercent := skip_percent rest (text_plain c) (text_ne_nil c)
  obtain ⟨x, t, tail, noFlag⟩ := widthTail_cons c rest
  have parsed := parseFlags_text c.flags x t noFlag
  rw [← tail, ← text_append] at parsed
  by_cases ordered : Ordered 0 c.flags
  · -- A star behind a second zero.
    have many : ¬ ((∃ v, c.width = .star v) → c.flags.count .zero ≤ 1) :=
      fun few => bad ⟨ordered.1, few⟩
    obtain ⟨⟨v, star⟩, two⟩ := Classical.not_imp.mp many
    let after : Conv := { c with flags := [], width := .digits [], lead := by simp }
    have ended : parseFlags (c.text ++ rest) = (found c.flags,
        List.replicate (c.flags.count .zero - 1) (ch '0') ++ ch '*' :: (after.text ++ rest)) := by
      rw [parsed, leftover_of_ordered ordered, flagText_zeroes, star, text_append]
      simp [flagText, Number.text, after]
    exact ⟨after.text, text_plain after,
      directive_at_stray s noPercent ended (by decide) (fun none => by omega)⟩
  · obtain ⟨k, f, fs, split, nonzero⟩ := split_zeroes (mt ordered_leftover.mpr ordered)
    let after : Conv := { c with flags := fs }
    have ended : parseFlags (c.text ++ rest) = (found c.flags,
        List.replicate k (ch '0') ++ ch f.char :: (after.text ++ rest)) := by
      rw [parsed, split, text_append]
      simp [flagText, FlagChar.char, after]
    have stray : ch f.char ∈ strays := by
      cases f <;> first | decide | exact absurd rfl nonzero
    exact ⟨after.text, text_plain after,
      directive_at_stray s noPercent ended stray (fun _ => by cases f <;> decide)⟩

/-! ### Runs that take fewer arguments -/

theorem run_plain (t rest : List UInt8) (s : State) (plain : Plain t) :
    ∃ s', run (t ++ rest) s = run rest s' ∧ s'.args = s.args := by
  induction t generalizing s with
  | nil => exact ⟨s, rfl, rfl⟩
  | cons x t ih =>
      obtain ⟨more, noPercent⟩ := plain x List.mem_cons_self
      obtain ⟨s', later, kept⟩ := ih ⟨s.stream ++ [x], wrapUInt (s.count + 1), s.args⟩
        fun y mem => plain y (List.mem_cons_of_mem x mem)
      refine ⟨s', ?_, kept⟩
      rw [List.cons_append, run_literal _ s more noPercent, printit_eq s more]
      exact later

/-- A directive that is read whole takes at most its arguments, and `u` leaves one. -/
theorem directive_atMost (c : Conv) (rest rest' : List UInt8) (s s' : State) (good : c.InOrder)
    (done : directive (c.text ++ rest) s = .ok (rest', s')) :
    rest' = rest ∧ s.args.length ≤ s'.args.length + c.args.length ∧
      (c.own.letter = 'u' → s.args.length < s'.args.length + c.args.length) := by
  rw [directive_text c rest s good] at done
  obtain ⟨⟨w, args₁⟩, width, done⟩ := bind_eq_ok.mp done
  obtain ⟨⟨p, args₂⟩, precision, done⟩ := bind_eq_ok.mp done
  obtain ⟨⟨o, args₃⟩, specified, done⟩ := map_eq_ok.mp done
  obtain ⟨rfl, rfl⟩ := Prod.mk.inj done
  have widthLeft := takeNumber_length width
  have precisionLeft : args₁.length ≤ args₂.length + (c.precision.elim [] Number.args).length := by
    cases given : c.precision with
    | none =>
        rw [given] at precision
        cases precision
        exact Nat.le_add_right _ _
    | some n =>
        rw [given] at precision
        exact takeNumber_length precision
  have left := argsAfter_length (ch c.own.letter) args₂
  cases specify_args specified
  refine ⟨rfl, ?_⟩
  simp only [Conv.args, State.add, List.length_append, List.length_singleton]
  refine ⟨by omega, fun letter => ?_⟩
  have kept : argsAfter (ch c.own.letter) args₂ = args₂ := by
    rw [letter, argsAfter, if_neg (by decide)]
  rw [kept]
  omega

/-- A piece takes at most its arguments, and fewer if it is a conversion that `vfprintf` does
not know. -/
theorem run_piece_atMost (p : Piece) (rest : List UInt8) (s final : State)
    (done : run (p.text ++ rest) s = .ok final) :
    ∃ s', run rest s' = .ok final ∧ s.args.length ≤ s'.args.length + p.args.length ∧
      ((∃ c, p = .conv c ∧ ¬ c.Known) → s.args.length < s'.args.length + p.args.length) := by
  cases p with
  | literal c more plain =>
      obtain ⟨count, same⟩ := run_own (.literal c more plain) rest s.stream s.count s.args
        fun _ same => by cases same
      exact ⟨_, same.symm.trans done, le_rfl, fun ⟨_, same, _⟩ => by cases same⟩
  | percent =>
      obtain ⟨count, same⟩ := run_own .percent rest s.stream s.count s.args
        fun _ same => by cases same
      exact ⟨_, same.symm.trans done, le_rfl, fun ⟨_, same, _⟩ => by cases same⟩
  | conv c =>
      change run (ch '%' :: (c.text ++ rest)) s = .ok final at done
      rw [run_directive] at done
      by_cases good : c.InOrder
      · obtain ⟨⟨rest', s'⟩, read, later⟩ := bind_eq_ok.mp done
        obtain ⟨rfl, left, fewer⟩ := directive_atMost c rest rest' s s' good read
        refine ⟨s', later, left, ?_⟩
        rintro ⟨c', same, unknown⟩
        cases same
        exact fewer (Classical.not_not.mp fun letter => unknown ⟨good, letter⟩)
      · obtain ⟨t, plain, read⟩ := directive_stray c rest s good
        rw [read] at done
        obtain ⟨s', later, kept⟩ := run_plain t rest (s.add (⟨s.stream, 0⟩, s.args)) plain
        have own : 0 < c.args.length := by simp [Conv.args]
        have same : s'.args = s.args := kept
        refine ⟨s', later ▸ done, ?_, fun _ => ?_⟩ <;> simp only [same, Piece.args] <;> omega

theorem run_pieces_atMost (pieces : List Piece) (s final : State)
    (done : run (pieces.flatMap Piece.text ++ [0]) s = .ok final) :
    s.args.length ≤ final.args.length + (pieces.flatMap Piece.args).length ∧
      ((∃ c, Piece.conv c ∈ pieces ∧ ¬ c.Known) →
        s.args.length < final.args.length + (pieces.flatMap Piece.args).length) := by
  induction pieces generalizing s with
  | nil =>
      cases done
      exact ⟨Nat.le_add_right _ _, fun ⟨_, mem, _⟩ => absurd mem List.not_mem_nil⟩
  | cons p pieces ih =>
      rw [List.flatMap_cons, List.append_assoc] at done
      obtain ⟨s', later, first, fewer⟩ := run_piece_atMost p _ s final done
      obtain ⟨left, fewer'⟩ := ih s' later
      rw [List.flatMap_cons, List.length_append]
      refine ⟨by omega, ?_⟩
      rintro ⟨c, mem, unknown⟩
      rcases List.mem_cons.mp mem with same | mem
      · have := fewer ⟨c, same.symm, unknown⟩
        omega
      · have := fewer' ⟨c, mem, unknown⟩
        omega

/-! ### Alignment -/

theorem written_pieces {pieces : List Piece}
    (same : ∀ c, Piece.conv c ∈ pieces → c.written = c.output) :
    pieces.flatMap Piece.written = pieces.flatMap Piece.output := by
  have each : ∀ p ∈ pieces, p.written = p.output := by
    intro p mem
    cases p with
    | literal => rfl
    | percent => rfl
    | conv c => exact same c mem
  rw [List.flatMap_def, List.flatMap_def, List.map_congr_left each]

/-- The last of some pieces, behind others whose text is the one of C. -/
theorem last_conv {pieces : List Piece} {c : Conv} (wellFormed : c.WellFormed)
    (good : ∀ c, Piece.conv c ∈ pieces → c.Known ∧ c.HasRoom)
    (same : ∀ c, Piece.conv c ∈ pieces → c.written = c.output) {count : Int}
    (done : run ((pieces ++ [Piece.conv c]).flatMap Piece.text ++ [0])
      ⟨[], 0, (pieces ++ [Piece.conv c]).flatMap Piece.args⟩ =
      .ok ⟨(pieces ++ [Piece.conv c]).flatMap Piece.output, count, []⟩) :
    c.Known ∧ c.HasRoom ∧ c.AsC := by
  have known : c.Known := by
    by_contra unknown
    have fewer := (run_pieces_atMost _ _ _ done).2
      ⟨c, List.mem_append_right _ List.mem_cons_self, unknown⟩
    simp at fewer
  obtain ⟨count', front⟩ := run_pieces pieces (ch '%' :: (c.text ++ [0])) [] 0 (c.args ++ []) good
  have text : (pieces ++ [Piece.conv c]).flatMap Piece.text ++ [0] =
      pieces.flatMap Piece.text ++ ch '%' :: (c.text ++ [0]) := by simp [Piece.text]
  have args : (pieces ++ [Piece.conv c]).flatMap Piece.args =
      pieces.flatMap Piece.args ++ (c.args ++ []) := by simp [Piece.args]
  rw [text, args, front, run_directive] at done
  by_cases room : c.HasRoom
  · obtain ⟨count'', taken⟩ := directive_own c [0] ([] ++ pieces.flatMap Piece.written) count' []
      known.1 known.2 room
    rw [taken] at done
    have streams := congrArg State.stream (Except.ok.inj done)
    simp only [written_pieces same, List.nil_append, List.flatMap_append, List.flatMap_singleton,
      List.append_cancel_left_eq] at streams
    exact ⟨known, room, (written_eq_output_iff known.2 wellFormed room).mp streams⟩
  · rw [directive_call c [0] _ count' [] known.1 known.2, call_outside c _ _ room] at done
    cases done

/-- Arguments and conversions stay aligned exactly where `vfprintf` knows every conversion, has
room for its text and writes the one of C. -/
theorem aligned_iff (pieces : List Piece)
    (wellFormed : ∀ c, Piece.conv c ∈ pieces → c.WellFormed) :
    Aligned pieces ↔ ∀ c, Piece.conv c ∈ pieces → c.Known ∧ c.HasRoom ∧ c.AsC := by
  constructor
  · intro aligned
    induction pieces using List.reverseRecOn with
    | nil => exact fun _ mem => absurd mem List.not_mem_nil
    | append_singleton pieces p ih =>
        have earlier := ih (fun c mem => wellFormed c (List.mem_append_left _ mem))
          fun front before => aligned front (before.trans (List.prefix_append _ _))
        intro c mem
        rcases List.mem_append.mp mem with front | last
        · exact earlier c front
        cases List.mem_singleton.mp last
        obtain ⟨count, done⟩ := aligned (pieces ++ [Piece.conv c]) (List.prefix_refl _)
        refine last_conv (wellFormed c mem) (fun c mem => ⟨(earlier c mem).1, (earlier c mem).2.1⟩)
          (fun d mem => ?_) done
        obtain ⟨known, room, asC⟩ := earlier d mem
        exact (written_eq_output_iff known.2 (wellFormed d (List.mem_append_left _ mem)) room).mpr
          asC
  · intro good front before
    have mem (c : Conv) (mem : Piece.conv c ∈ front) : Piece.conv c ∈ pieces := before.subset mem
    obtain ⟨count, done⟩ := run_pieces front [0] [] 0 [] fun c inside =>
      ⟨(good c (mem c inside)).1, (good c (mem c inside)).2.1⟩
    have texts : front.flatMap Piece.written = front.flatMap Piece.output :=
      written_pieces fun c inside => by
        obtain ⟨known, room, asC⟩ := good c (mem c inside)
        exact (written_eq_output_iff known.2 (wellFormed c (mem c inside)) room).mpr asC
    refine ⟨count, ?_⟩
    rw [run_nul, List.append_nil, List.nil_append, texts] at done
    exact done

/-- A field of five, a number of base 16 with its prefix, and a string. -/
theorem aligned_iff_sample : ∃ pieces, pieces.flatMap Piece.text = ascii "%-5d%#x%s" ∧
    pieces.flatMap Piece.output = ascii "7    0xffab" ∧ Aligned pieces := by
  let field : Conv := ⟨[.minus], .digits [5], by simp, none, .d .none (7 : Int32)⟩
  let hex : Conv := ⟨[.pound], .digits [], by simp, none, .x .none (255 : UInt32)⟩
  let string : Conv := ⟨[], .digits [], by simp, none, .s 1 ⟨ascii "ab", by decide⟩⟩
  have wellFormed : ∀ c ∈ [field, hex, string], c.WellFormed := by
    simp only [List.forall_mem_cons]
    refine ⟨⟨by decide, by simp [field], by simp [field]⟩,
      ⟨by decide, by simp [hex], by simp [hex]⟩, ⟨by decide, by simp [string], ?_⟩, by simp⟩
    rintro address target same
    cases same
    decide
  have first : field.Known ∧ field.HasRoom ∧ field.AsC := by
    refine ⟨⟨⟨List.pairwise_singleton .., fun _ => by decide⟩, by decide⟩, ?_, ?_, ?_, ?_⟩
    · rintro base v same
      cases same
      exact .inr (by decide)
    · rintro base v same
      cases same
      exact .inl ⟨fun letter => absurd letter (by decide), .inr ⟨by decide, .inl (by decide)⟩⟩
    · exact fun v same => by cases same
    · exact fun address target same => by cases same
  have second : hex.Known ∧ hex.HasRoom ∧ hex.AsC := by
    refine ⟨⟨⟨List.pairwise_singleton .., fun _ => by decide⟩, by decide⟩, ?_, ?_, ?_, ?_⟩
    · rintro base v same
      cases same
      exact .inr (by decide)
    · rintro base v same
      cases same
      exact .inl ⟨fun _ => List.mem_cons_self, .inl (by decide)⟩
    · exact fun v same => by cases same
    · exact fun address target same => by cases same
  have third : string.Known ∧ string.HasRoom ∧ string.AsC := by
    refine ⟨⟨⟨List.Pairwise.nil, fun _ => by decide⟩, by decide⟩, ?_, ?_, ?_, ?_⟩
    · exact fun base v same => by cases same
    · exact fun base v same => by cases same
    · exact fun v same => by cases same
    · exact fun address target _ => .inl (by decide)
  have good : ∀ c ∈ [field, hex, string], c.Known ∧ c.HasRoom ∧ c.AsC := by
    simp [first, second, third]
  refine ⟨[.conv field, .conv hex, .conv string], by decide +kernel, by decide +kernel, ?_⟩
  refine (aligned_iff _ fun c mem => wellFormed c (by simpa using mem)).mpr fun c mem =>
    good c (by simpa using mem)

/-- `%u %d` of 1 and 2. -/
def unsignedThenSigned : List Piece :=
  [.conv ⟨[], .digits [], by simp, none, .u .none (1 : UInt32)⟩,
    .literal (ch ' ') (by decide) (by decide),
    .conv ⟨[], .digits [], by simp, none, .d .none (2 : Int32)⟩]

/-- The first conversion writes nothing, and the second one gets its argument. -/
theorem exists_not_aligned : ∃ pieces, pieces.flatMap Piece.text = ascii "%u %d" ∧
    (vfprintf (pieces.flatMap Piece.text ++ [0]) (pieces.flatMap Piece.args)).map State.stream =
      .ok (ascii " 1") ∧ pieces.flatMap Piece.output = ascii "1 2" ∧
    (∀ c, Piece.conv c ∈ pieces → c.WellFormed) ∧ ¬ Aligned pieces := by
  have shifted : (vfprintf (unsignedThenSigned.flatMap Piece.text ++ [0])
      (unsignedThenSigned.flatMap Piece.args)).map State.stream = .ok (ascii " 1") := by
    decide +kernel
  have output : unsignedThenSigned.flatMap Piece.output = ascii "1 2" := by decide +kernel
  refine ⟨unsignedThenSigned, by decide +kernel, shifted, output, ?_, ?_⟩
  · intro c mem
    simp only [unsignedThenSigned, List.mem_cons, Piece.conv.injEq, reduceCtorEq, false_or,
      List.not_mem_nil, or_false] at mem
    rcases mem with rfl | rfl <;> exact ⟨by decide, by simp, by simp⟩
  · intro aligned
    obtain ⟨count, whole⟩ := aligned unsignedThenSigned (List.prefix_refl _)
    rw [whole, output] at shifted
    have other : ascii "1 2" ≠ ascii " 1" := by decide
    exact other (Except.ok.inj shifted)

end EBBLib.Stdio
