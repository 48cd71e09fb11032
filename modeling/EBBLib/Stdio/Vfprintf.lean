import EBBLib.Stdio.Printi

/-!
# `vfprintf` of the bare `stdio.c`

A pointer into the format is the list of the bytes from there to the NUL, with the NUL. Behind
it is the empty list, and a read there is the fault `pastNul`. The stages of a directive move
the pointer on over what they recognise and leave an empty list empty.

The arguments are typed. `va_arg` takes the next one if its type is the one asked for, or the
other one of the same width. For an argument that is missing or of another type there is the
fault `noArg`. A call of `printi` whose text leaves `print_buf` is the fault `outside`.
-/

namespace EBBLib.Stdio

open StartInfo (CStr ascii wrapInt)

/-- An argument. A string that is passed comes with its address. -/
inductive Arg where
  | int (v : Int32)
  | uint (v : UInt32)
  | long (v : Int64)
  | ulong (v : UInt64)
  | longlong (v : Int64)
  | ulonglong (v : UInt64)
  | ptr (address : UInt64) (target : CStr)

/-- Why a run has no result. -/
inductive Fault where
  | pastNul
  | noArg
  | overread
  | outside
  | unterminated
deriving DecidableEq, Repr

/-- The value of an `unsigned int` after an arithmetic operation. -/
def wrapUInt (x : Int) : Int := x % 2 ^ 32

/-- The conversion to a `long` or a `long long`. -/
def wrapLong (x : Int) : Int := (x + 2 ^ 63) % 2 ^ 64 - 2 ^ 63

/-! ### Arguments -/

/-- `va_arg(ap, int)`. -/
def vaInt : List Arg → Except Fault (Int × List Arg)
  | .int v :: args => .ok (v.toInt, args)
  | .uint v :: args => .ok (wrapInt v.toNat, args)
  | _ => .error .noArg

/-- `va_arg(ap, long)`, for a number. A pointer is as wide as a `long`. -/
def vaLong : List Arg → Except Fault (Int × List Arg)
  | .long v :: args => .ok (v.toInt, args)
  | .ulong v :: args => .ok (wrapLong v.toNat, args)
  | .ptr address _ :: args => .ok (wrapLong address.toNat, args)
  | _ => .error .noArg

/-- `va_arg(ap, long long)`. -/
def vaLongLong : List Arg → Except Fault (Int × List Arg)
  | .longlong v :: args => .ok (v.toInt, args)
  | .ulonglong v :: args => .ok (wrapLong v.toNat, args)
  | _ => .error .noArg

/-- `(char *)va_arg(ap, long)`, with the bytes that `str ? str : "(null)"` points to. -/
def vaString : List Arg → Except Fault (List UInt8 × List Arg)
  | .ptr address target :: args =>
      .ok (if address ≠ 0 then target.bytes ++ [0] else ascii "(null)" ++ [0], args)
  | _ => .error .noArg

/-! ### The stages of a directive -/

/-- `if (*format == c) format++`. -/
def skip (c : Char) : List UInt8 → Bool × List UInt8
  | [] => (false, [])
  | x :: format => if x = ch c then (true, format) else (false, x :: format)

/-- The flags, each of them once and in this order. -/
def parseFlags (format : List UInt8) : Flags × List UInt8 :=
  let (justLeft, format) := skip '-' format
  let (positiveSign, format) := skip '+' format
  let (noSignSpace, format) := skip ' ' format
  let (poundFlag, format) := skip '#' format
  let (padWithZeroes, format) := skip '0' format
  ({ Flags.none with justLeft, positiveSign, noSignSpace, poundFlag, padWithZeroes }, format)

/-- `c >= '0' && c <= '9'`. -/
def isDigit (c : UInt8) : Bool := ch '0' ≤ c ∧ c ≤ ch '9'

/-- The loops over digits, `n *= 10; n += *format - '0'`. -/
def readNumber (wrap : Int → Int) : List UInt8 → Int → Int × List UInt8
  | [], n => (n, [])
  | c :: format, n =>
      if isDigit c then readNumber wrap format (wrap (wrap (n * 10) + (c.toNat - (ch '0').toNat)))
      else (n, c :: format)

/-- The width, as an `unsigned int`. -/
def parseWidth (format : List UInt8) (args : List Arg) :
    Except Fault (Int × List UInt8 × List Arg) :=
  let (star, format) := skip '*' format
  if star then (vaInt args).map fun (v, args) => (wrapUInt v, format, args)
  else
    let (width, format) := readNumber wrapUInt format 0
    .ok (width, format, args)

/-- The precision. -/
def parsePrecision (format : List UInt8) (args : List Arg) :
    Except Fault (Int × List UInt8 × List Arg) :=
  let (dot, format) := skip '.' format
  if dot then
    let (star, format) := skip '*' format
    if star then (vaInt args).map fun (v, args) => (v, format, args)
    else
      let (precision, format) := readNumber wrapInt format 0
      .ok (precision, format, args)
  else .ok (-1, format, args)

/-- The length. -/
def parseLength (flags : Flags) (format : List UInt8) : Flags × List UInt8 :=
  let (h, format) := skip 'h' format
  if h then ({ flags with short := true }, format)
  else
    let (l, format) := skip 'l' format
    if l then
      let (l, format) := skip 'l' format
      if l then ({ flags with longlong := true }, format)
      else ({ flags with long := true }, format)
    else
      let (upper, format) := skip 'L' format
      if upper then ({ flags with long := true }, format) else (flags, format)

/-! ### The specifiers -/

/-- What a call of `prints` or `printi` gives, with the arguments that are left. -/
def printed (out : Option Out) (args : List Arg) : Except Fault (Out × List Arg) :=
  match out with
  | some o => .ok (o, args)
  | none => .error .overread

/-- A call of `printi` with the sign 1. -/
def printInt (val : Int) (base : Nat) (width precision : Int) (flags : Flags) (cbase : UInt8)
    (stream : List UInt8) (args : List Arg) : Except Fault (Out × List Arg) :=
  if (printBuf val base 1 precision flags cbase).InBounds then
    printed (printi val base 1 width precision flags cbase stream) args
  else .error .outside

/-- The calls of `va_arg` and `printi` for `x`, `p` and `X`. -/
def specifyHex (cbase : UInt8) (isLong : Bool) (flags : Flags) (width precision : Int)
    (args : List Arg) (stream : List UInt8) : Except Fault (Out × List Arg) :=
  if flags.short then
    (vaInt args).bind fun (v, args) =>
      printInt (v % 2 ^ 16) 16 width precision flags cbase stream args
  else if isLong then
    (vaLong args).bind fun (v, args) =>
      printInt v 16 width precision flags cbase stream args
  else if flags.longlong then
    (vaLongLong args).bind fun (v, args) =>
      printInt v 16 width precision flags cbase stream args
  else
    (vaInt args).bind fun (v, args) =>
      printInt (wrapUInt v) 16 width precision flags cbase stream args

/-- The specifier. The width is converted to an `int` in the call. A character that is none of
these writes nothing. -/
def specify (c : UInt8) (flags : Flags) (width precision : Int) (args : List Arg)
    (stream : List UInt8) : Except Fault (Out × List Arg) :=
  let width := wrapInt width
  if c = ch 'c' then
    (vaInt args).bind fun (v, args) =>
      printed (prints [UInt8.ofInt v, 0] width 1 flags stream) args
  else if c = ch 's' then
    (vaString args).bind fun (str, args) => printed (prints str width precision flags stream) args
  else if c = ch 'd' ∨ c = ch 'i' then
    let va := if flags.short then vaInt else if flags.long then vaLong
      else if flags.longlong then vaLongLong else vaInt
    (va args).bind fun (v, args) =>
      printInt v 10 width precision flags (ch 'a') stream args
  else if c = ch 'x' ∨ c = ch 'p' then
    specifyHex (ch 'a') (flags.long ∨ c = ch 'p') flags width precision args stream
  else if c = ch 'X' then specifyHex (ch 'A') flags.long flags width precision args stream
  else .ok (⟨stream, 0⟩, args)

/-! ### The loop -/

/-- The stream, `count` and the arguments that are left. -/
structure State where
  stream : List UInt8
  count : Int
  args : List Arg

/-- `count += …`. -/
def State.add (s : State) (out : Out × List Arg) : State :=
  ⟨out.1.stream, wrapUInt (s.count + out.1.count), out.2⟩

/-- `printit`: one character as it is. -/
def printit (c : UInt8) (s : State) : Except Fault State :=
  (printed (prints [c, 0] 0 1 Flags.none s.stream) s.args).map s.add

/-- A directive, with `format` behind its percent sign: the pointer after the `format++` of
the loop, and the state. -/
def directive (format : List UInt8) (s : State) : Except Fault (List UInt8 × State) :=
  let (percent, literal) := skip '%' format
  if percent then (printit (ch '%') s).map fun s => (literal, s)
  else
    let (flags, format) := parseFlags format
    (parseWidth format s.args).bind fun (width, format, args) =>
      (parsePrecision format args).bind fun (precision, format, args) =>
        let (flags, format) := parseLength flags format
        match format with
        | [] => .error .pastNul
        | c :: format =>
            (specify c flags width precision args s.stream).map fun out => (format, s.add out)

/-- `for (; *format != '\\0'; format++)`. The fuel bounds the passes. -/
def loop : Nat → List UInt8 → State → Except Fault State
  | 0, _, _ => .error .unterminated
  | _ + 1, [], _ => .error .pastNul
  | fuel + 1, c :: format, s =>
      if c = 0 then .ok s
      else if c = ch '%' then (directive format s).bind fun (format, s) => loop fuel format s
      else (printit c s).bind fun s => loop fuel format s

/-- `vfprintf`, on a stream that has nothing yet: a pass takes at least one byte of the
format. -/
def vfprintf (format : List UInt8) (args : List Arg) : Except Fault State :=
  loop (format.length + 1) format ⟨[], 0, args⟩

end EBBLib.Stdio
