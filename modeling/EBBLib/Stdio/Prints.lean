import EBBLib.Start.StartInfo

/-!
# `prints` of the bare `stdio.c`

`prints` writes a string into a field of a width, of which it takes as many characters as
the precision says. The precision also bounds the width there, so a field is never wider
than its precision.

A string is given by the bytes from its address to the end of the object that holds it. A
read behind that gives `none`. The variables of type `int` wrap.
-/

namespace EBBLib.Stdio

open StartInfo (CStr ascii wrapInt)

/-- The value of a character constant. -/
def ch (c : Char) : UInt8 := UInt8.ofNat c.toNat

/-- The bits of `flags`. -/
structure Flags where
  justLeft : Bool
  positiveSign : Bool
  noSignSpace : Bool
  poundFlag : Bool
  padWithZeroes : Bool
  short : Bool
  long : Bool
  longlong : Bool
deriving DecidableEq, Repr

/-- No bit is set. -/
def Flags.none : Flags := ⟨false, false, false, false, false, false, false, false⟩

/-- The bytes written to the stream so far, and the variable `count`. -/
structure Out where
  stream : List UInt8
  count : Int
deriving DecidableEq, Repr

/-- `putc(c, stream); count++`. -/
def Out.putc (o : Out) (c : UInt8) : Out := ⟨o.stream ++ [c], wrapInt (o.count + 1)⟩

/-- `for(; width > 0; width--)`: `width` paddings. -/
def padTo (pad : UInt8) : Nat → Out → Out
  | 0, o => o
  | width + 1, o => padTo pad width (o.putc pad)

/-- The loop that counts `len` from `ptr` on. -/
def countLen (precision : Int) : List UInt8 → Int → Option Int
  | [], _ => none
  | c :: ptr, len =>
      if c ≠ 0 ∧ (precision = -1 ∨ len ≤ precision) then countLen precision ptr (wrapInt (len + 1))
      else some len

/-- `for(; precision != 0 && *str != '\\0'; str++, precision--)`. -/
def copyStr : List UInt8 → Int → Out → Option Out
  | [], precision, o => if precision = 0 then some o else none
  | c :: str, precision, o =>
      if precision ≠ 0 ∧ c ≠ 0 then copyStr str (wrapInt (precision - 1)) (o.putc c) else some o

/-- `prints`: the bytes in the stream then, and the result. -/
def prints (str : List UInt8) (width precision : Int) (flags : Flags) (stream : List UInt8) :
    Option Out :=
  let width := if precision ≠ -1 ∧ width > precision then precision else width
  let pad := if flags.padWithZeroes then ch '0' else ch ' '
  let padding :=
    if width > 0 then
      (countLen precision str 0).map fun len => if len ≥ width then 0 else wrapInt (width - len)
    else some width
  padding.bind fun width =>
    let o := ⟨stream, 0⟩
    let (o, width) :=
      if ¬ flags.justLeft then (padTo pad width.toNat o, min width 0) else (o, width)
    (copyStr str precision o).map fun o => padTo pad width.toNat o

/-! ### The loops -/

/-- Some bytes, one after the other. -/
def Out.putAll (o : Out) (cs : List UInt8) : Out := cs.foldl Out.putc o

@[simp] theorem Out.putAll_nil (o : Out) : o.putAll [] = o := rfl

theorem Out.putAll_cons (o : Out) (c : UInt8) (cs : List UInt8) :
    o.putAll (c :: cs) = (o.putc c).putAll cs := rfl

theorem Out.putAll_append (o : Out) (cs ds : List UInt8) :
    o.putAll (cs ++ ds) = (o.putAll cs).putAll ds := List.foldl_append ..

theorem Out.putAll_eq (stream : List UInt8) (count : Int) (cs : List UInt8) :
    Out.putAll ⟨stream, wrapInt count⟩ cs = ⟨stream ++ cs, wrapInt (count + cs.length)⟩ := by
  induction cs generalizing stream count with
  | nil => simp [putAll]
  | cons c cs ih =>
      have later := ih (stream ++ [c]) (count + 1)
      rw [← StartInfo.wrapInt_add count 1] at later
      simp only [putAll, List.foldl_cons, putc] at later ⊢
      rw [later]
      simp
      congr 1
      omega

theorem padTo_eq (pad : UInt8) (n : Nat) (o : Out) :
    padTo pad n o = o.putAll (List.replicate n pad) := by
  induction n generalizing o with
  | zero => rfl
  | succ n ih => exact ih _

/-- The precision counts down as an unsigned number. -/
theorem copyStr_eq (s junk : List UInt8) (precision : Int) (o : Out) (nulFree : 0 ∉ s)
    (lo : -2 ^ 31 ≤ precision) (hi : precision < 2 ^ 31) :
    copyStr (s ++ 0 :: junk) precision o =
      some (o.putAll (s.take (precision % 2 ^ 32).toNat)) := by
  induction s generalizing precision o with
  | nil => simp [copyStr, Out.putAll]
  | cons c s ih =>
      have plain : c ≠ 0 := fun zero => nulFree (zero ▸ List.mem_cons_self)
      by_cases stop : precision = 0
      · simp [copyStr, stop, Out.putAll]
      · obtain ⟨lo', hi'⟩ := StartInfo.wrapInt_fits (precision - 1)
        have next : (precision % 2 ^ 32).toNat = (wrapInt (precision - 1) % 2 ^ 32).toNat + 1 := by
          simp only [wrapInt]
          omega
        have later := ih (wrapInt (precision - 1)) (o.putc c)
          (fun mem => nulFree (List.mem_cons_of_mem c mem)) lo' hi'
        rw [next, List.take_succ_cons, Out.putAll_cons]
        simpa [copyStr, stop, plain] using later

/-- The same bytes behind others. -/
def Out.behind (stream : List UInt8) (o : Out) : Out := ⟨stream ++ o.stream, o.count⟩

theorem Out.putc_behind (stream : List UInt8) (o : Out) (c : UInt8) :
    (o.behind stream).putc c = (o.putc c).behind stream := by
  simp [behind, putc]

theorem padTo_behind (pad : UInt8) (n : Nat) (stream : List UInt8) (o : Out) :
    padTo pad n (o.behind stream) = (padTo pad n o).behind stream := by
  induction n generalizing o with
  | zero => rfl
  | succ n ih =>
      rw [padTo, Out.putc_behind, ih]
      rfl

theorem copyStr_behind (str : List UInt8) (precision : Int) (stream : List UInt8) (o : Out) :
    copyStr str precision (o.behind stream) =
      (copyStr str precision o).map (Out.behind stream) := by
  induction str generalizing precision o with
  | nil =>
      simp only [copyStr]
      split <;> rfl
  | cons c str ih =>
      simp only [copyStr]
      split
      · rw [Out.putc_behind, ih]
      · rfl

/-- What is in the stream already changes neither the bytes that are added nor their number. -/
theorem prints_behind (str : List UInt8) (width precision : Int) (flags : Flags)
    (stream : List UInt8) :
    prints str width precision flags stream =
      (prints str width precision flags []).map (Out.behind stream) := by
  have start : (⟨stream, 0⟩ : Out) = Out.behind stream ⟨[], 0⟩ := by simp [Out.behind]
  unfold prints
  simp only [start]
  rw [Option.map_bind]
  congr 1
  funext width
  by_cases left : flags.justLeft = true <;>
    simp [left, copyStr_behind, padTo_behind, Function.comp_def]

theorem countLen_isSome (s junk : List UInt8) (precision len : Int) :
    (countLen precision (s ++ 0 :: junk) len).isSome := by
  induction s generalizing len with
  | nil => simp [countLen]
  | cons c s ih =>
      simp only [List.cons_append, countLen]
      split
      · exact ih _
      · rfl

theorem copyStr_isSome (s junk : List UInt8) (precision : Int) (o : Out) :
    (copyStr (s ++ 0 :: junk) precision o).isSome := by
  induction s generalizing precision o with
  | nil => simp [copyStr]
  | cons c s ih =>
      simp only [List.cons_append, copyStr]
      split
      · exact ih _ _
      · rfl

/-- A string that has a NUL is not read past its end. -/
theorem prints_isSome (s junk : List UInt8) (width precision : Int) (flags : Flags)
    (stream : List UInt8) : (prints (s ++ 0 :: junk) width precision flags stream).isSome := by
  obtain ⟨len, counted⟩ := Option.isSome_iff_exists.mp (countLen_isSome s junk precision 0)
  have copied (o : Out) := copyStr_isSome s junk precision o
  have padded (w : Int) : ∃ w', (if w > 0 then
      (countLen precision (s ++ 0 :: junk) 0).map fun len =>
        if len ≥ w then 0 else wrapInt (w - len)
      else some w) = some w' := by
    rw [counted]
    split <;> exact ⟨_, rfl⟩
  obtain ⟨w, padding⟩ := padded (if precision ≠ -1 ∧ width > precision then precision else width)
  refine (congrArg (fun found => (Option.bind found _).isSome) padding).trans ?_
  by_cases left : flags.justLeft = true <;> simp [left, copied]

/-- What `countLen` makes of a length. The comparison of `len` with the greatest `int` does
not stop the loop. -/
def lenOf (length : Nat) (precision : Int) : Int :=
  if precision = -1 ∨ precision = 2 ^ 31 - 1 then wrapInt length
  else max 0 (min length (precision + 1))

/-- Without a bound, or with one that no `int` is greater than. -/
theorem countLen_all (s junk : List UInt8) (precision len : Int) (nulFree : 0 ∉ s)
    (free : precision = -1 ∨ precision = 2 ^ 31 - 1) (lo : -2 ^ 31 ≤ len) (hi : len < 2 ^ 31) :
    countLen precision (s ++ 0 :: junk) len = some (wrapInt (len + s.length)) := by
  induction s generalizing len with
  | nil => simp [countLen, StartInfo.wrapInt_of_fits lo hi]
  | cons c s ih =>
      have plain : c ≠ 0 := fun zero => nulFree (zero ▸ List.mem_cons_self)
      have go : precision = -1 ∨ len ≤ precision := by omega
      obtain ⟨lo', hi'⟩ := StartInfo.wrapInt_fits (len + 1)
      have later := ih (wrapInt (len + 1)) (fun mem => nulFree (List.mem_cons_of_mem c mem)) lo' hi'
      rw [StartInfo.wrapInt_add, show len + 1 + (s.length : Int) = len + (c :: s).length by
        simp only [List.length_cons]; omega] at later
      simpa [countLen, plain, go] using later

theorem countLen_upto (s junk : List UInt8) (precision len : Int) (nulFree : 0 ∉ s)
    (bound : precision ≠ -1) (hi : precision < 2 ^ 31 - 1) (lo : 0 ≤ len) :
    countLen precision (s ++ 0 :: junk) len =
      some (max len (min (len + s.length) (precision + 1))) := by
  induction s generalizing len with
  | nil =>
      have stop : countLen precision (0 :: junk) len = some len := if_neg fun both => both.1 rfl
      rw [List.nil_append, stop, List.length_nil]
      congr 1
      omega
  | cons c s ih =>
      have plain : c ≠ 0 := fun zero => nulFree (zero ▸ List.mem_cons_self)
      simp only [List.length_cons]
      by_cases go : len ≤ precision
      · have next : wrapInt (len + 1) = len + 1 :=
          StartInfo.wrapInt_of_fits (by omega) (by omega)
        have later := ih (len + 1) (fun mem => nulFree (List.mem_cons_of_mem c mem)) (by omega)
        simp only [List.cons_append, countLen, plain, go, bound, next, ne_eq, not_false_eq_true,
          or_true, and_true, if_true, later]
        congr 1
        omega
      · simp [countLen, plain, go, bound]
        omega

theorem countLen_eq (s junk : List UInt8) (precision : Int) (nulFree : 0 ∉ s)
    (hi : precision < 2 ^ 31) :
    countLen precision (s ++ 0 :: junk) 0 = some (lenOf s.length precision) := by
  by_cases free : precision = -1 ∨ precision = 2 ^ 31 - 1
  · rw [countLen_all s junk precision 0 nulFree free (by omega) (by omega), lenOf, if_pos free,
      Int.zero_add]
  · obtain ⟨bound, notLast⟩ := not_or.mp free
    rw [countLen_upto s junk precision 0 nulFree bound (by omega) (by omega), lenOf, if_neg free,
      Int.zero_add]

/-! ### The whole of `prints` -/

/-- `pad`. -/
def padByte (flags : Flags) : UInt8 := if flags.padWithZeroes then ch '0' else ch ' '

/-- The precision bounds the width. -/
def capped (width precision : Int) : Int :=
  if precision ≠ -1 ∧ width > precision then precision else width

/-- The width that is left for padding. -/
def paddingOf (length : Nat) (width precision : Int) : Int :=
  if capped width precision > 0 then
    if lenOf length precision ≥ capped width precision then 0
    else wrapInt (capped width precision - lenOf length precision)
  else capped width precision

/-- A text with its padding. -/
def pad (flags : Flags) (padding : Nat) (text : List UInt8) : List UInt8 :=
  let blanks := List.replicate padding (padByte flags)
  if flags.justLeft then text ++ blanks else blanks ++ text

theorem length_pad (flags : Flags) (padding : Nat) (text : List UInt8) :
    (pad flags padding text).length = padding + text.length := by
  by_cases left : flags.justLeft = true <;> simp [pad, left, Nat.add_comm]

/-- What is behind the NUL is not read. -/
theorem prints_eq (s junk : List UInt8) (width precision : Int) (flags : Flags)
    (stream : List UInt8) (nulFree : 0 ∉ s) (lo : -2 ^ 31 ≤ precision) (hi : precision < 2 ^ 31) :
    prints (s ++ 0 :: junk) width precision flags stream =
      some (Out.putAll ⟨stream, 0⟩ (pad flags (paddingOf s.length width precision).toNat
        (s.take (precision % 2 ^ 32).toNat))) := by
  have padding : (if capped width precision > 0 then
      (countLen precision (s ++ 0 :: junk) 0).map fun len =>
        if len ≥ capped width precision then 0 else wrapInt (capped width precision - len)
      else some (capped width precision)) = some (paddingOf s.length width precision) := by
    rw [countLen_eq s junk precision nulFree hi, paddingOf]
    by_cases positive : capped width precision > 0 <;> simp [positive]
  have copied (o : Out) := copyStr_eq s junk precision o nulFree lo hi
  refine (congrArg (fun found => Option.bind found _) padding).trans ?_
  by_cases left : flags.justLeft = true
  · simp [left, copied, padTo_eq, pad, padByte, Out.putAll_append]
  · -- The first padding leaves no width for the second.
    have spent : (min (paddingOf s.length width precision) 0).toNat = 0 := by omega
    simp [left, copied, padTo_eq, pad, padByte, Out.putAll_append, spent]

/-! ### Fields -/

/-- The characters of a string that a precision lets through. -/
def shown (s : List UInt8) (precision : Int) : List UInt8 :=
  if precision = -1 then s else s.take precision.toNat

/-- A string conversion as the language has it: the characters shown, padded to the width. -/
def field (s : List UInt8) (width precision : Int) (flags : Flags) : List UInt8 :=
  pad flags (width.toNat - (shown s precision).length) (shown s precision)

/-- The precision lets all of the string through, and the width does not exceed it. Without a
precision the `int` that is returned has to hold the length of the string. The greatest `int`
as a precision does not stop the loop that counts, so the length that it finds wraps. -/
def Fits (length : Nat) (width precision : Int) : Prop :=
  if precision = -1 then length < 2 ^ 31
  else width ≤ precision ∧ ¬ (precision = 2 ^ 31 - 1 ∧ 2 ^ 31 ≤ length ∧ 0 < width ∧
    0 < width - wrapInt length ∧ width - wrapInt length < 2 ^ 31)

theorem length_shown (s : List UInt8) (precision : Int) (hi : precision ≠ -1) :
    (shown s precision).length = min precision.toNat s.length := by
  rw [shown, if_neg hi, List.length_take]

/-- What `prints` puts out, for a precision that vfprintf can pass on. -/
theorem prints_shown (s : CStr) (junk : List UInt8) (width precision : Int) (flags : Flags)
    (stream : List UInt8) (lo : -1 ≤ precision) (hi : precision < 2 ^ 31)
    (short : precision = -1 → s.bytes.length < 2 ^ 32) :
    prints (s.bytes ++ 0 :: junk) width precision flags stream =
      some ⟨stream ++ pad flags (paddingOf s.bytes.length width precision).toNat
        (shown s.bytes precision), wrapInt (pad flags
          (paddingOf s.bytes.length width precision).toNat (shown s.bytes precision)).length⟩ := by
  have whole : s.bytes.take (precision % 2 ^ 32).toNat = shown s.bytes precision := by
    by_cases unbounded : precision = -1
    · rw [shown, if_pos unbounded, List.take_of_length_le]
      have := short unbounded
      omega
    · rw [shown, if_neg unbounded, show precision % 2 ^ 32 = precision by omega]
  have zero : wrapInt 0 = 0 := rfl
  rw [prints_eq s.bytes junk width precision flags stream s.nulFree (by omega) hi, whole, ← zero,
    Out.putAll_eq, Int.zero_add]

/-- The number of paddings tells two padded texts apart. -/
theorem pad_inj {flags : Flags} {text : List UInt8} {m n : Nat} :
    pad flags m text = pad flags n text ↔ m = n := by
  constructor
  · intro same
    have lengths := congrArg List.length same
    rw [length_pad, length_pad] at lengths
    omega
  · rintro rfl
    rfl

/-- The difference of two lengths wraps to nothing that is padded with. -/
theorem wrapInt_sub_toNat {width len : Int} (wide : 0 < width) (wide' : width < 2 ^ 31)
    (lo : -2 ^ 31 ≤ len) (hi : len < 2 ^ 31) :
    (wrapInt (width - len)).toNat = if width - len < 2 ^ 31 then (width - len).toNat else 0 := by
  simp only [wrapInt]
  split <;> omega

theorem padding_unbounded (length : Nat) (width precision : Int) (wide : 0 ≤ width)
    (wide' : width < 2 ^ 31) (free : precision = -1 ∨ precision = 2 ^ 31 - 1) :
    (paddingOf length width precision).toNat =
      if 0 < width ∧ width - wrapInt length < 2 ^ 31 then (width - wrapInt length).toNat
      else 0 := by
  have counted : lenOf length precision = wrapInt length := if_pos free
  have whole : capped width precision = width := if_neg (by omega)
  obtain ⟨lo, hi⟩ := StartInfo.wrapInt_fits length
  rw [paddingOf, counted, whole]
  by_cases none : width = 0
  · simp [none]
  · have positive : 0 < width := by omega
    have difference := wrapInt_sub_toNat positive wide' lo hi
    simp only [gt_iff_lt, positive, true_and, if_true]
    split_ifs at difference ⊢ <;> omega

/-- Without a precision, for a length that an `int` can hold. -/
theorem padding_whole (length : Nat) (width : Int) (wide' : width < 2 ^ 31)
    (short : length < 2 ^ 31) : (paddingOf length width (-1)).toNat = width.toNat - length := by
  by_cases wide : 0 ≤ width
  · rw [padding_unbounded length width (-1) wide wide' (.inl rfl),
      StartInfo.wrapInt_of_fits (by omega) (by omega)]
    split <;> omega
  · have whole : capped width (-1) = width := if_neg (by omega)
    rw [paddingOf, whole, if_neg (by omega)]
    omega

theorem padding_bounded (length : Nat) (width precision : Int) (wide : 0 ≤ width)
    (lo : 0 ≤ precision) (hi : precision < 2 ^ 31 - 1) :
    (paddingOf length width precision).toNat = (min width precision).toNat - length := by
  have counted : lenOf length precision = max 0 (min (length : Int) (precision + 1)) :=
    if_neg (by omega)
  have least : capped width precision = min width precision := by
    rw [capped]
    split <;> omega
  rw [paddingOf, counted, least]
  by_cases stop : max 0 (min (length : Int) (precision + 1)) ≥ min width precision
  · simp only [stop, if_true]
    split <;> omega
  · rw [if_neg stop, StartInfo.wrapInt_of_fits (by omega) (by omega)]
    split <;> omega

/-- The paddings are the ones that the field asks for. -/
theorem padding_iff (length : Nat) (width precision : Int) (wide : 0 ≤ width)
    (wide' : width < 2 ^ 31) (lo : 0 ≤ precision) (hi : precision < 2 ^ 31) :
    (paddingOf length width precision).toNat = width.toNat - min precision.toNat length ↔
      Fits length width precision := by
  rw [Fits, if_neg (by omega)]
  by_cases last : precision = 2 ^ 31 - 1
  · rw [padding_unbounded length width precision wide wide' (.inr last)]
    by_cases short : length < 2 ^ 31
    · rw [StartInfo.wrapInt_of_fits (by omega) (by omega)]
      split <;> omega
    · split <;> omega
  · rw [padding_bounded length width precision wide lo (by omega),
      and_iff_left fun both => last both.1]
    omega

/-- `prints` writes the field, and returns its length, exactly where the precision does not cut
the width. -/
theorem prints_field_iff (s : CStr) (width precision : Int) (flags : Flags)
    (stream : List UInt8) (wide : 0 ≤ width) (wide' : width < 2 ^ 31) (lo : -1 ≤ precision)
    (hi : precision < 2 ^ 31) :
    prints (s.bytes ++ [0]) width precision flags stream =
      some ⟨stream ++ field s.bytes width precision flags,
        (field s.bytes width precision flags).length⟩ ↔
      Fits s.bytes.length width precision := by
  by_cases unbounded : precision = -1
  · subst unbounded
    have padding : shown s.bytes (-1) = s.bytes := if_pos rfl
    by_cases short : s.bytes.length < 2 ^ 31
    · have same := padding_whole s.bytes.length width wide' short
      rw [prints_shown s [] width (-1) flags stream (by omega) (by omega) (by omega), same, field,
        padding, StartInfo.wrapInt_of_fits (by omega) (by rw [length_pad]; omega)]
      exact iff_of_true rfl ((if_pos rfl).mpr short)
    · rw [prints_eq s.bytes [] width (-1) flags stream s.nulFree (by omega) (by omega)]
      -- No `int` is the number of characters of the field.
      refine iff_of_false (fun same => ?_) (by simpa [Fits] using short)
      have long : s.bytes.length ≤ (field s.bytes width (-1) flags).length := by
        rw [field, length_pad, padding]
        omega
      have count := congrArg Out.count (Option.some.inj same)
      have zero : wrapInt 0 = 0 := rfl
      rw [← zero, Out.putAll_eq, Int.zero_add] at count
      have := (StartInfo.wrapInt_fits (pad flags (paddingOf s.bytes.length width (-1)).toNat
        (s.bytes.take ((-1 : Int) % 2 ^ 32).toNat)).length).2
      simp only at count
      omega
  · rw [prints_shown s [] width precision flags stream lo hi (fun h => absurd h unbounded),
      ← padding_iff s.bytes.length width precision wide wide' (by omega) hi, field,
      ← length_shown s.bytes precision unbounded]
    constructor
    · intro same
      have texts := congrArg Out.stream (Option.some.inj same)
      exact pad_inj.mp (List.append_cancel_left texts)
    · intro same
      rw [same, StartInfo.wrapInt_of_fits (by omega)]
      rw [length_pad, length_shown s.bytes precision unbounded]
      omega

/-- A string in a wider field. -/
theorem prints_field_iff_sample :
    prints (ascii "ab" ++ [0]) 5 (-1) Flags.none [] =
      some ⟨[] ++ field (ascii "ab") 5 (-1) Flags.none,
        (field (ascii "ab") 5 (-1) Flags.none).length⟩ ↔ Fits (ascii "ab").length 5 (-1) :=
  prints_field_iff ⟨ascii "ab", by decide⟩ 5 (-1) Flags.none [] (by decide) (by decide) (by decide)
    (by decide)

/-- A character in a field of five gets no padding. -/
theorem exists_prints_ne_field :
    ∃ (s : CStr) (width precision : Int), 0 ≤ width ∧ -1 ≤ precision ∧
      prints (s.bytes ++ [0]) width precision Flags.none [] = some ⟨ascii "a", 1⟩ ∧
      field s.bytes width precision Flags.none = ascii "    a" :=
  ⟨⟨ascii "a", by decide⟩, 5, 1, by decide, by decide, by decide, by decide⟩

end EBBLib.Stdio
