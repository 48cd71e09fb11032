import Mathlib.Data.Nat.Digits.Defs

/-!
# Numerals

A numeral is a list of characters that is read from the front. `digit` gives the value of a
character, if it is a digit. The values of digits are not bounded by the base here; the digits
of a number in a base are Mathlib's.
-/

namespace Numeral

variable {α : Type*} (digit : α → Option Nat) (base : Nat)

/-- The number that is read, with one that was read before it. -/
def valueFrom : Nat → List α → Option Nat
  | acc, [] => some acc
  | acc, c :: cs => (digit c).bind fun d => valueFrom (acc * base + d) cs

/-- The number that a numeral denotes. It has at least one digit. -/
def value : List α → Option Nat
  | [] => none
  | c :: cs => valueFrom digit base 0 (c :: cs)

variable {digit base}

theorem value_eq {cs : List α} (nonempty : cs ≠ []) :
    value digit base cs = valueFrom digit base 0 cs := by
  cases cs with
  | nil => exact absurd rfl nonempty
  | cons c cs => rfl

theorem valueFrom_append (acc : Nat) (cs ds : List α) :
    valueFrom digit base acc (cs ++ ds) =
      (valueFrom digit base acc cs).bind (valueFrom digit base · ds) := by
  induction cs generalizing acc with
  | nil => rfl
  | cons c cs ih =>
      rw [List.cons_append, valueFrom, valueFrom, Option.bind_assoc]
      exact congrArg _ (funext fun d => ih _)

/-- Something that is no digit. -/
theorem valueFrom_none {c : α} {cs : List α} (mem : c ∈ cs) (other : digit c = none) (acc : Nat) :
    valueFrom digit base acc cs = none := by
  induction cs generalizing acc with
  | nil => exact absurd mem List.not_mem_nil
  | cons d cs ih =>
      rcases List.mem_cons.mp mem with rfl | mem
      · rw [valueFrom, other]
        rfl
      · rw [valueFrom]
        cases digit d with
        | none => rfl
        | some d => exact ih mem _

/-- Zeroes shift what was read before. -/
theorem valueFrom_zeroes {zero : α} (isZero : digit zero = some 0) (acc k : Nat) :
    valueFrom digit base acc (List.replicate k zero) = some (acc * base ^ k) := by
  induction k generalizing acc with
  | zero => simp [valueFrom]
  | succ k ih =>
      rw [List.replicate_succ, valueFrom, isZero]
      simp only [Option.bind_some, Nat.add_zero, ih]
      rw [Nat.pow_succ', Nat.mul_assoc]

/-- Digits with the last one first, written from the first one on. -/
theorem valueFrom_reverse {char : Nat → α} {ds : List Nat}
    (read : ∀ d ∈ ds, digit (char d) = some d) (acc : Nat) :
    valueFrom digit base acc (ds.reverse.map char) =
      some (acc * base ^ ds.length + Nat.ofDigits base ds) := by
  induction ds with
  | nil => simp [valueFrom]
  | cons d ds ih =>
      have later := ih fun e mem => read e (List.mem_cons_of_mem d mem)
      rw [List.reverse_cons, List.map_append, valueFrom_append, later]
      simp only [List.map_cons, List.map_nil, Option.bind_some, valueFrom,
        read d List.mem_cons_self, Nat.ofDigits_cons, List.length_cons]
      congr 1
      ring

/-- The digits of a number read back. -/
theorem valueFrom_digits {char : Nat → α} (two : 1 < base)
    (read : ∀ d < base, digit (char d) = some d) (acc n : Nat) :
    valueFrom digit base acc ((Nat.digits base n).reverse.map char) =
      some (acc * base ^ (Nat.digits base n).length + n) := by
  rw [valueFrom_reverse fun d mem => read d (Nat.digits_lt_base two mem), Nat.ofDigits_digits]

end Numeral
