import EBBLib.Stdio.Format

/-!
# Directives and their arguments

A format is made here of literal characters and conversions, each with the arguments that it
asks for and the text that it stands for in C. Nothing of it is taken from the code. A flag or a
precision that C leaves without a meaning has no effect, and the text of `p`, which C leaves open,
is that of `x` with the flag `#`.
-/

namespace EBBLib.Stdio

open StartInfo (CStr ascii wrapInt)

/-! ### Conversions -/

/-- The characters that are flags. -/
inductive FlagChar where
  | minus
  | plus
  | space
  | pound
  | zero
deriving DecidableEq, Repr

def FlagChar.char : FlagChar → Char
  | .minus => '-'
  | .plus => '+'
  | .space => ' '
  | .pound => '#'
  | .zero => '0'

/-- The place in the order in which `vfprintf` looks for the flags. -/
def FlagChar.rank : FlagChar → Nat
  | .minus => 0
  | .plus => 1
  | .space => 2
  | .pound => 3
  | .zero => 4

/-- A width or a precision: digits, or a star with its argument. -/
inductive Number where
  | digits (ds : List (Fin 10))
  | star (v : Int32)

/-- A length. -/
inductive Length where
  | none
  | h
  | l
  | ll
deriving DecidableEq, Repr

/-- The types of the arguments of `d` and `i`. -/
abbrev Signed : Length → Type
  | .none => Int32
  | .h => Int16
  | .l => Int64
  | .ll => Int64

/-- The types of the arguments of `u`, `x` and `X`. -/
abbrev Unsigned : Length → Type
  | .none => UInt32
  | .h => UInt16
  | .l => UInt64
  | .ll => UInt64

/-- The letter of a conversion with its own argument. A length goes with the conversions of
integers. -/
inductive Own where
  | d (length : Length) (v : Signed length)
  | i (length : Length) (v : Signed length)
  | u (length : Length) (v : Unsigned length)
  | x (length : Length) (v : Unsigned length)
  | X (length : Length) (v : Unsigned length)
  | p (address : UInt64) (target : CStr)
  | c (v : Int32)
  | s (address : UInt64) (target : CStr)

/-- A conversion. A zero in front of the width is a flag. -/
structure Conv where
  flags : List FlagChar
  width : Number
  lead : ∀ ds, width = .digits ds → ds.head? ≠ some 0
  precision : Option Number
  own : Own

/-- A literal character, two percent signs, or a conversion. -/
inductive Piece where
  | literal (c : UInt8) (more : c ≠ 0) (plain : c ≠ ch '%')
  | percent
  | conv (c : Conv)

/-! ### The text of a format -/

def flagText (fs : List FlagChar) : List UInt8 := fs.map (ch ·.char)

def digitByte (d : Fin 10) : UInt8 := ch '0' + UInt8.ofNat d

def Number.text : Number → List UInt8
  | .digits ds => ds.map digitByte
  | .star _ => [ch '*']

def precisionText : Option Number → List UInt8
  | none => []
  | some n => ch '.' :: n.text

def Length.text : Length → List UInt8
  | .none => []
  | .h => [ch 'h']
  | .l => [ch 'l']
  | .ll => [ch 'l', ch 'l']

namespace Own

def letter : Own → Char
  | d .. => 'd'
  | i .. => 'i'
  | u .. => 'u'
  | x .. => 'x'
  | X .. => 'X'
  | p .. => 'p'
  | c .. => 'c'
  | s .. => 's'

def length : Own → Length
  | d length _ | i length _ | u length _ | x length _ | X length _ => length
  | p .. | c .. | s .. => .none

end Own

/-- What is behind the percent sign. -/
def Conv.text (c : Conv) : List UInt8 :=
  flagText c.flags ++ c.width.text ++ precisionText c.precision ++ c.own.length.text ++
    [ch c.own.letter]

def Piece.text : Piece → List UInt8
  | literal c _ _ => [c]
  | percent => [ch '%', ch '%']
  | conv c => ch '%' :: c.text

/-! ### The arguments of a format -/

/-- A `short` is passed as an `int`. -/
def signedArg : (length : Length) → Signed length → Arg
  | .none, v => .int v
  | .h, v => .int v.toInt32
  | .l, v => .long v
  | .ll, v => .longlong v

/-- An `unsigned short` is passed as an `int`. -/
def unsignedArg : (length : Length) → Unsigned length → Arg
  | .none, v => .uint v
  | .h, v => .int (Int32.ofInt v.toNat)
  | .l, v => .ulong v
  | .ll, v => .ulonglong v

def Own.arg : Own → Arg
  | d length v | i length v => signedArg length v
  | u length v | x length v | X length v => unsignedArg length v
  | p address target | s address target => .ptr address target
  | c v => .int v

def Number.args : Number → List Arg
  | .digits _ => []
  | .star v => [.int v]

def Conv.args (c : Conv) : List Arg :=
  c.width.args ++ (c.precision.elim [] Number.args ++ [c.own.arg])

def Piece.args : Piece → List Arg
  | literal .. | percent => []
  | conv c => c.args

/-! ### The text of a conversion -/

/-- The number that digits denote. -/
def decimal (ds : List (Fin 10)) : Nat := ds.foldl (fun (n : Nat) (d : Fin 10) => n * 10 + d) 0

def Number.amount : Number → Int
  | .digits ds => decimal ds
  | .star v => v.toInt

def signedVal : (length : Length) → Signed length → Int
  | .none, v => v.toInt
  | .h, v => v.toInt
  | .l, v => v.toInt
  | .ll, v => v.toInt

def unsignedVal : (length : Length) → Unsigned length → Nat
  | .none, v => v.toNat
  | .h, v => v.toNat
  | .l, v => v.toNat
  | .ll, v => v.toNat

/-- The digits up to base 16. -/
def digit (upper : Bool) (d : Nat) : UInt8 :=
  (ascii (if upper then "0123456789ABCDEF" else "0123456789abcdef")).getD d 0

/-- A numeral of at least `least` digits. Zero has none of its own. -/
def numeral (base : Nat) (upper : Bool) (n least : Nat) : List UInt8 :=
  let digits := (Nat.digits base n).reverse.map (digit upper)
  List.replicate (least - digits.length) (ch '0') ++ digits

namespace Own

/-- The sign or the radix prefix. -/
def mark (fs : List FlagChar) : Own → List UInt8
  | d length v | i length v =>
      if signedVal length v < 0 then ascii "-"
      else if .plus ∈ fs then ascii "+"
      else if .space ∈ fs then ascii " "
      else []
  | x length v => if .pound ∈ fs ∧ unsignedVal length v ≠ 0 then ascii "0x" else []
  | X length v => if .pound ∈ fs ∧ unsignedVal length v ≠ 0 then ascii "0X" else []
  | p address _ => if address.toNat ≠ 0 then ascii "0x" else []
  | u .. | c .. | s .. => []

/-- The digits, the character, or the characters of the string that the precision lets through.
For a null pointer there is no string in C, and "(null)" here. -/
def body (precision : Option Nat) : Own → List UInt8
  | d length v | i length v => numeral 10 false (signedVal length v).natAbs (precision.getD 1)
  | u length v => numeral 10 false (unsignedVal length v) (precision.getD 1)
  | x length v => numeral 16 false (unsignedVal length v) (precision.getD 1)
  | X length v => numeral 16 true (unsignedVal length v) (precision.getD 1)
  | p address _ => numeral 16 false address.toNat (precision.getD 1)
  | c v => [UInt8.ofInt v.toInt]
  | s address target =>
      let str := if address ≠ 0 then target.bytes else ascii "(null)"
      precision.elim str str.take

/-- The conversions that are padded with zeroes. -/
def isInteger : Own → Bool
  | c .. | s .. => false
  | d .. | i .. | u .. | x .. | X .. | p .. => true

end Own

/-- A negative precision counts as none. -/
def Conv.places (c : Conv) : Option Nat :=
  c.precision.bind fun n => if n.amount < 0 then none else some n.amount.toNat

/-- The text that C prints for a conversion. A negative width is the flag `-` with its absolute
value. A zero as a flag is not seen with `-` or a precision. -/
def Conv.output (c : Conv) : List UInt8 :=
  let mark := c.own.mark c.flags
  let body := c.own.body c.places
  let padding := c.width.amount.natAbs - (mark ++ body).length
  if .minus ∈ c.flags ∨ c.width.amount < 0 then mark ++ body ++ List.replicate padding (ch ' ')
  else if .zero ∈ c.flags ∧ c.own.isInteger ∧ c.places = none then
    mark ++ List.replicate padding (ch '0') ++ body
  else List.replicate padding (ch ' ') ++ (mark ++ body)

def Piece.output : Piece → List UInt8
  | literal c _ _ => [c]
  | percent => [ch '%']
  | conv c => c.output

/-- The numbers fit into an `int`, and so does the length of a string. C has no result for
others. -/
structure Conv.WellFormed (c : Conv) : Prop where
  width : c.width.amount < 2 ^ 31
  precision : ∀ n, c.precision = some n → n.amount < 2 ^ 31
  string : ∀ address target, c.own = .s address target → target.bytes.length < 2 ^ 31

/-! ### What is asked of `vfprintf` -/

/-- Every piece takes its own arguments and writes its own text, whatever is in front of it: up to
each piece, all text is the one of the pieces and no argument is left. -/
def Aligned (pieces : List Piece) : Prop :=
  ∀ front, front <+: pieces →
    ∃ count, vfprintf (front.flatMap Piece.text ++ [0]) (front.flatMap Piece.args) =
      .ok ⟨front.flatMap Piece.output, count, []⟩

/-- The flags of a conversion are in the order in which `vfprintf` looks for them. A second zero
is taken as a digit of the width. -/
def Conv.InOrder (c : Conv) : Prop :=
  c.flags.Pairwise (fun f g => f.rank < g.rank ∨ f = .zero ∧ g = .zero) ∧
    ((∃ v, c.width = .star v) → c.flags.count .zero ≤ 1)

end EBBLib.Stdio
