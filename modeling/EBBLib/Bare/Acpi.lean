import EBBLib.Bare.Ioapic
import Mathlib.Tactic.Ring

/-!
# The walk over the MADT

`acpi_init` walks over the sub-structures of the table that describes the interrupt
controllers. Each of them begins with its type and its length, and `size` counts what is left of
the table. The loop looks at a sub-structure before it looks at `size`, it takes the length as
it is, and `size` is unsigned.

`Chain` says which tables the walk gets through. In all others it reads outside the table or
does not end.
-/

namespace EBBLib.Acpi

/-- How the walk ends: at the end of the table, in a failed assertion, or by reading a byte
outside the table. -/
inductive Stop where
  | finished
  | assertion
  | outside
deriving DecidableEq, Repr

/-- The bytes of a table. -/
abbrev Bytes := List (BitVec 8)

/-- The byte at an offset. -/
def byteAt (bytes : Bytes) (p : Nat) : BitVec 8 := bytes.getD p 0

/-- A load of one byte. -/
def read8 (bytes : Bytes) (p : Nat) : Except Stop (BitVec 8) :=
  if p < bytes.length then .ok (byteAt bytes p) else .error .outside

/-- A load of four bytes, the lowest one first. -/
def read32 (bytes : Bytes) (p : Nat) : Except Stop (BitVec 32) := do
  let b0 ← read8 bytes p
  let b1 ← read8 bytes (p + 1)
  let b2 ← read8 bytes (p + 2)
  let b3 ← read8 bytes (p + 3)
  return b3 ++ b2 ++ b1 ++ b0

/-- `LRT_Assert`. -/
def lrtAssert (cond : Bool) : Except Stop Unit := if cond then .ok () else .error .assertion

/-- `sizeof(madt)`. -/
def madtSize : Nat := 44

/-- `PROCESSOR_LOCAL_APIC`. -/
def processorLocalApic : BitVec 8 := 0

/-- `IO_APIC`. -/
def ioApic : BitVec 8 := 1

/-- `INTERRUPT_SOURCE_OVERRIDE`. -/
def interruptSourceOverride : BitVec 8 := 2

/-- `ptr` as an offset in the table, `size` and `ioapics`. -/
structure Walk where
  ptr : Nat
  size : BitVec 32
  ioapics : Nat
deriving DecidableEq, Repr

/-- `size -= length; ptr += length`. -/
def Walk.advance (w : Walk) (length : BitVec 8) : Walk :=
  { w with ptr := w.ptr + length.toNat, size := w.size - length.setWidth 32 }

variable (device : BitVec 32 → Ioapic) (bytes : Bytes)

/-- The body of the loop. `device` is the IO-APIC at an address. -/
def body (w : Walk) : Except Stop Walk := do
  let type ← read8 bytes w.ptr
  if type = processorLocalApic then
    let length ← read8 bytes (w.ptr + 1)
    return w.advance length
  else if type = ioApic then
    let length ← read8 bytes (w.ptr + 1)
    let ioapicAddress ← read32 bytes (w.ptr + 4)
    lrtAssert (Ioapic.initIoapic (device ioapicAddress)).isSome
    lrtAssert (w.ioapics + 1 < 2)
    return { w.advance length with ioapics := w.ioapics + 1 }
  else if type = interruptSourceOverride then
    let length ← read8 bytes (w.ptr + 1)
    let _source ← read8 bytes (w.ptr + 3)
    let _globalSystemInterrupt ← read32 bytes (w.ptr + 4)
    return w.advance length
  else throw .assertion

/-- The loop. The fuel bounds the number of iterations; `none` means that the loop is still
running when the fuel is used up. -/
def walk : Nat → Walk → Option Stop
  | 0, _ => none
  | fuel + 1, w =>
      match body device bytes w with
      | .error stop => some stop
      | .ok w => if 0 < w.size then walk fuel w else some .finished

/-- `acpi_init` from the load of `header.Length` on. -/
def acpiInit (fuel : Nat) : Option Stop :=
  match read32 bytes 4 with
  | .error stop => some stop
  | .ok length =>
      walk device bytes fuel ⟨madtSize, length - BitVec.ofNat 32 madtSize, 0⟩

/-- The table that `AcpiGetTable` returns: `header.Length` bytes, which is no less than
`sizeof(madt)`. -/
structure Madt where
  bytes : Bytes
  whole : madtSize ≤ bytes.length
  fits : bytes.length < 2 ^ 32
  headerLength : read32 bytes 4 = .ok (BitVec.ofNat 32 bytes.length)

/-- The walk over a table ends, and it reads no byte outside the table. -/
def Total (table : Madt) : Prop :=
  ∃ fuel stop, acpiInit device table.bytes fuel = some stop ∧ stop ≠ .outside

/-! ### The tables that the walk gets through -/

/-- The bytes of a sub-structure up to the last one that the walk reads. -/
def fieldBytes (type : BitVec 8) : Nat :=
  if type = processorLocalApic then 2
  else if type = ioApic ∨ type = interruptSourceOverride then 8
  else 1

/-- The length of a sub-structure. -/
def lengthAt (p : Nat) : Nat := (byteAt bytes (p + 1)).toNat

/-- The address field of an IO-APIC structure. -/
def addressAt (p : Nat) : BitVec 32 :=
  byteAt bytes (p + 7) ++ byteAt bytes (p + 6) ++ byteAt bytes (p + 5) ++ byteAt bytes (p + 4)

/-- An assertion fails at a sub-structure: its type is unknown, it is the second IO-APIC, or the
IO-APIC has another version. -/
def Fails (ioapics p : Nat) : Prop :=
  let type := byteAt bytes p
  (type ≠ processorLocalApic ∧ type ≠ ioApic ∧ type ≠ interruptSourceOverride) ∨
    type = ioApic ∧
      (ioapics ≠ 0 ∨ (Ioapic.initIoapic (device (addressAt bytes p))).isNone)

instance (ioapics p : Nat) : Decidable (Fails device bytes ioapics p) :=
  inferInstanceAs (Decidable (_ ∨ _ ∧ _))

/-- The sub-structures from an offset on lead to the end of the table or to a failed assertion.
The fields that are read of each of them lie inside the table, and a length of 0 is found at
most in an IO-APIC structure, where the walk meets the IO-APIC for a second time. -/
inductive Chain : Nat → Nat → Prop
  | fails {n p : Nat} (inside : p + fieldBytes (byteAt bytes p) ≤ bytes.length)
      (fails : Fails device bytes n p) : Chain n p
  | last {n p : Nat} (inside : p + fieldBytes (byteAt bytes p) ≤ bytes.length)
      (passes : ¬ Fails device bytes n p)
      (ends : p + lengthAt bytes p = bytes.length) : Chain n p
  | next {n p : Nat} (inside : p + fieldBytes (byteAt bytes p) ≤ bytes.length)
      (passes : ¬ Fails device bytes n p)
      (goesOn : p + lengthAt bytes p < bytes.length)
      (moves : 0 < lengthAt bytes p ∨ byteAt bytes p = ioApic)
      (rest : Chain (if byteAt bytes p = ioApic then n + 1 else n)
        (p + lengthAt bytes p)) : Chain n p

section

variable {device bytes} {w : Walk} {n p : Nat}

theorem read8_of_lt (inside : p < bytes.length) : read8 bytes p = .ok (byteAt bytes p) :=
  if_pos inside

theorem read8_of_le (short : bytes.length ≤ p) : read8 bytes p = .error .outside :=
  if_neg (Nat.not_lt.mpr short)

theorem read32_of_le (inside : p + 4 ≤ bytes.length) :
    read32 bytes p = .ok (byteAt bytes (p + 3) ++ byteAt bytes (p + 2) ++ byteAt bytes (p + 1) ++
      byteAt bytes p) := by
  simp only [read32, read8_of_lt (show p < bytes.length by omega),
    read8_of_lt (show p + 1 < bytes.length by omega),
    read8_of_lt (show p + 2 < bytes.length by omega),
    read8_of_lt (show p + 3 < bytes.length by omega)]
  rfl

/-- A byte of the four is outside the table, if the last one is. -/
theorem read32_of_lt (short : bytes.length < p + 4) : read32 bytes p = .error .outside := by
  have last : read8 bytes (p + 3) = .error .outside := read8_of_le (by omega)
  simp only [read32, last]
  by_cases first : p < bytes.length
  · by_cases second : p + 1 < bytes.length
    · by_cases third : p + 2 < bytes.length
      · rw [read8_of_lt first, read8_of_lt second, read8_of_lt third]
        rfl
      · rw [read8_of_lt first, read8_of_lt second, read8_of_le (Nat.not_lt.mp third)]
        rfl
    · rw [read8_of_lt first, read8_of_le (Nat.not_lt.mp second)]
      rfl
  · rw [read8_of_le (Nat.not_lt.mp first)]
    rfl

theorem ok_bind {α β : Type} (a : α) (f : α → Except Stop β) :
    (Except.ok a >>= f) = f a := rfl

theorem error_bind {α β : Type} (stop : Stop) (f : α → Except Stop β) :
    (Except.error stop >>= f) = .error stop := rfl

/-- A load that fails for lack of a byte ends the walk outside, wherever it stands. -/
theorem read8_bind_outside {α : Type} (p : Nat) {f : BitVec 8 → Except Stop α}
    (later : ∀ b, f b = .error .outside) : (read8 bytes p >>= f) = .error .outside := by
  obtain inside | short := Nat.lt_or_ge p bytes.length
  · rw [read8_of_lt inside, ok_bind, later]
  · rw [read8_of_le short, error_bind]

/-- A sub-structure whose fields are not all inside the table. -/
theorem body_outside (short : ¬ w.ptr + fieldBytes (byteAt bytes w.ptr) ≤ bytes.length) :
    body device bytes w = .error .outside := by
  obtain first | none := Nat.lt_or_ge w.ptr bytes.length
  · rw [body, read8_of_lt first, ok_bind]
    rw [fieldBytes] at short
    by_cases lapic : byteAt bytes w.ptr = processorLocalApic
    · rw [if_pos lapic] at short
      rw [if_pos lapic, read8_of_le (by omega), error_bind]
    · rw [if_neg lapic] at short ⊢
      by_cases io : byteAt bytes w.ptr = ioApic
      · rw [if_pos (.inl io)] at short
        rw [if_pos io]
        refine read8_bind_outside _ fun length => ?_
        rw [read32_of_lt (by omega), error_bind]
      · rw [if_neg io]
        by_cases override : byteAt bytes w.ptr = interruptSourceOverride
        · rw [if_pos (.inr override)] at short
          rw [if_pos override]
          refine read8_bind_outside _ fun length => read8_bind_outside _ fun source => ?_
          rw [read32_of_lt (by omega), error_bind]
        · rw [if_neg (by tauto)] at short
          omega
  · rw [body, read8_of_le none, error_bind]

/-- The walk past a sub-structure. -/
def Walk.past (w : Walk) (bytes : Bytes) : Walk :=
  { w.advance (byteAt bytes (w.ptr + 1)) with
    ioapics := if byteAt bytes w.ptr = ioApic then w.ioapics + 1 else w.ioapics }

/-- The loads of a sub-structure inside the table. -/
theorem body_inside (inside : w.ptr + fieldBytes (byteAt bytes w.ptr) ≤ bytes.length) :
    body device bytes w =
      if byteAt bytes w.ptr = processorLocalApic then .ok (w.advance (byteAt bytes (w.ptr + 1)))
      else if byteAt bytes w.ptr = ioApic then
        lrtAssert (Ioapic.initIoapic (device (addressAt bytes w.ptr))).isSome >>= fun _ =>
        lrtAssert (w.ioapics + 1 < 2) >>= fun _ =>
        .ok { w.advance (byteAt bytes (w.ptr + 1)) with ioapics := w.ioapics + 1 }
      else if byteAt bytes w.ptr = interruptSourceOverride then
        .ok (w.advance (byteAt bytes (w.ptr + 1)))
      else .error .assertion := by
  rw [fieldBytes] at inside
  have first : w.ptr < bytes.length := by
    split at inside
    · omega
    · split at inside <;> omega
  rw [body, read8_of_lt first, ok_bind]
  by_cases lapic : byteAt bytes w.ptr = processorLocalApic
  · rw [if_pos lapic] at inside
    rw [if_pos lapic, if_pos lapic, read8_of_lt (by omega), ok_bind]
    rfl
  · rw [if_neg lapic] at inside
    rw [if_neg lapic, if_neg lapic]
    by_cases io : byteAt bytes w.ptr = ioApic
    · rw [if_pos (.inl io)] at inside
      rw [if_pos io, if_pos io, read8_of_lt (by omega), ok_bind, read32_of_le (by omega), ok_bind]
      rfl
    · rw [if_neg io, if_neg io]
      by_cases override : byteAt bytes w.ptr = interruptSourceOverride
      · rw [if_pos (.inr override)] at inside
        rw [if_pos override, if_pos override, read8_of_lt (by omega), ok_bind,
          read8_of_lt (by omega), ok_bind, read32_of_le (by omega), ok_bind]
        rfl
      · rw [if_neg override, if_neg override]
        rfl

/-- A sub-structure at which an assertion fails. -/
theorem body_fails (inside : w.ptr + fieldBytes (byteAt bytes w.ptr) ≤ bytes.length)
    (fails : Fails device bytes w.ioapics w.ptr) : body device bytes w = .error .assertion := by
  rw [body_inside inside]
  rcases fails with ⟨lapic, io, override⟩ | ⟨io, fails⟩
  · rw [if_neg lapic, if_neg io, if_neg override]
  · have lapic : byteAt bytes w.ptr ≠ processorLocalApic := by
      rw [io]
      decide
    rw [if_neg lapic, if_pos io]
    cases version : Ioapic.initIoapic (device (addressAt bytes w.ptr)) with
    | none => rfl
    | some d =>
        have second : ¬ w.ioapics + 1 < 2 := by
          rcases fails with second | none
          · omega
          · rw [version] at none
            cases none
        simp only [lrtAssert, Option.isSome_some, if_true, second, decide_false,
          Bool.false_eq_true, if_false]
        rfl

/-- A sub-structure that the walk goes past. -/
theorem body_passes (inside : w.ptr + fieldBytes (byteAt bytes w.ptr) ≤ bytes.length)
    (passes : ¬ Fails device bytes w.ioapics w.ptr) :
    body device bytes w = .ok (w.past bytes) := by
  obtain ⟨known, fine⟩ := not_or.mp passes
  rw [body_inside inside, Walk.past]
  by_cases io : byteAt bytes w.ptr = ioApic
  · have lapic : byteAt bytes w.ptr ≠ processorLocalApic := by
      rw [io]
      decide
    obtain ⟨first, version⟩ := not_or.mp fun fails => fine ⟨io, fails⟩
    have first : w.ioapics = 0 := not_not.mp first
    rw [if_neg lapic, if_pos io, if_pos io]
    cases init : Ioapic.initIoapic (device (addressAt bytes w.ptr)) with
    | none => exact absurd (by rw [init]; rfl) version
    | some d =>
        rw [first]
        rfl
  · rw [if_neg io, if_neg io]
    by_cases lapic : byteAt bytes w.ptr = processorLocalApic
    · rw [if_pos lapic]
      rfl
    · have override : byteAt bytes w.ptr = interruptSourceOverride := by
        by_contra other
        exact known ⟨lapic, io, other⟩
      rw [if_neg lapic, if_pos override]
      rfl

/-- `size` is what is left of the table. -/
def Walk.Left (w : Walk) (bytes : Bytes) : Prop := w.size.toNat + w.ptr = bytes.length

/-- `size` goes around when a length is more than is left. -/
theorem toNat_size_past (w : Walk) (bytes : Bytes) :
    (w.past bytes).size.toNat =
      if lengthAt bytes w.ptr ≤ w.size.toNat then w.size.toNat - lengthAt bytes w.ptr
      else 2 ^ 32 - (lengthAt bytes w.ptr - w.size.toNat) := by
  have small : lengthAt bytes w.ptr < 2 ^ 8 := (byteAt bytes (w.ptr + 1)).isLt
  have size := w.size.isLt
  have around : (w.past bytes).size.toNat =
      (2 ^ 32 - lengthAt bytes w.ptr % 2 ^ 32 + w.size.toNat) % 2 ^ 32 := by
    simp only [Walk.past, Walk.advance, BitVec.toNat_sub, BitVec.toNat_setWidth]
    rfl
  rw [around]
  split <;> omega

theorem zero_lt_iff {x : BitVec 32} : 0 < x ↔ 0 < x.toNat := by
  rw [BitVec.lt_def]
  rfl

/-- The walk from a sub-structure that it goes past. -/
theorem walk_passes (fuel : Nat)
    (inside : w.ptr + fieldBytes (byteAt bytes w.ptr) ≤ bytes.length)
    (passes : ¬ Fails device bytes w.ioapics w.ptr) :
    walk device bytes (fuel + 1) w =
      if 0 < (w.past bytes).size then walk device bytes fuel (w.past bytes)
      else some .finished := by
  rw [walk, body_passes inside passes]

/-- The walk goes on while something is left of the table. -/
theorem walk_next (fuel : Nat) (left : w.Left bytes)
    (inside : w.ptr + fieldBytes (byteAt bytes w.ptr) ≤ bytes.length)
    (passes : ¬ Fails device bytes w.ioapics w.ptr)
    (goesOn : w.ptr + lengthAt bytes w.ptr < bytes.length) :
    walk device bytes (fuel + 1) w = walk device bytes fuel (w.past bytes) ∧
      (w.past bytes).Left bytes := by
  have size := toNat_size_past w bytes
  have ptr : (w.past bytes).ptr = w.ptr + lengthAt bytes w.ptr := rfl
  rw [Walk.Left] at left
  rw [if_pos (by omega)] at size
  refine ⟨?_, ?_⟩
  · rw [walk_passes fuel inside passes, if_pos (zero_lt_iff.mpr (by omega))]
  · rw [Walk.Left]
    omega

/-- A length that is more than is left sends the walk outside. -/
theorem walk_beyond {fuel : Nat} {stop : Stop} (left : w.Left bytes)
    (inside : w.ptr + fieldBytes (byteAt bytes w.ptr) ≤ bytes.length)
    (passes : ¬ Fails device bytes w.ioapics w.ptr)
    (beyond : bytes.length < w.ptr + lengthAt bytes w.ptr)
    (run : walk device bytes (fuel + 1) w = some stop) : stop = .outside := by
  have size := toNat_size_past w bytes
  have small : lengthAt bytes w.ptr < 2 ^ 8 := (byteAt bytes (w.ptr + 1)).isLt
  have ptr : (w.past bytes).ptr = w.ptr + lengthAt bytes w.ptr := rfl
  rw [Walk.Left] at left
  rw [if_neg (by omega)] at size
  rw [walk_passes _ inside passes, if_pos (zero_lt_iff.mpr (by omega))] at run
  cases fuel with
  | zero => cases run
  | succ fuel =>
      rw [walk, body, read8_of_le (by omega), error_bind] at run
      exact (Option.some.inj run).symm

/-- What a walk that ends inside the table has gone through is a chain. -/
theorem chain_of_walk {stop : Stop} {fuel : Nat} (left : w.Left bytes)
    (run : walk device bytes fuel w = some stop) (within : stop ≠ .outside) :
    Chain device bytes w.ioapics w.ptr := by
  induction fuel generalizing w with
  | zero => cases run
  | succ fuel ih =>
      by_cases inside : w.ptr + fieldBytes (byteAt bytes w.ptr) ≤ bytes.length
      · by_cases fails : Fails device bytes w.ioapics w.ptr
        · exact .fails inside fails
        · obtain goesOn | ends | beyond :=
            Nat.lt_trichotomy (w.ptr + lengthAt bytes w.ptr) bytes.length
          · obtain ⟨next, left⟩ := walk_next fuel left inside fails goesOn
            have rest : Chain device bytes (w.past bytes).ioapics (w.past bytes).ptr :=
              ih left (next.symm.trans run)
            by_cases moves : 0 < lengthAt bytes w.ptr ∨ byteAt bytes w.ptr = ioApic
            · exact .next inside fails goesOn moves rest
            · -- The walk is where it was, with less fuel.
              obtain ⟨still, other⟩ := not_or.mp moves
              have here : (w.past bytes).ptr = w.ptr + lengthAt bytes w.ptr := rfl
              have same : (w.past bytes).ioapics = w.ioapics := if_neg other
              rwa [here, same, Nat.eq_zero_of_not_pos still, Nat.add_zero] at rest
          · exact .last inside fails ends
          · exact absurd (walk_beyond left inside fails beyond run) within
      · rw [walk, body_outside inside] at run
        exact absurd (Option.some.inj run).symm within

/-- The walk gets through a chain. -/
theorem walk_of_chain {n p : Nat} (chain : Chain device bytes n p) (left : w.Left bytes)
    (here : w.ptr = p) (count : w.ioapics = n) :
    ∃ fuel stop, walk device bytes fuel w = some stop ∧ stop ≠ .outside := by
  induction chain generalizing w with
  | fails inside fails =>
      subst here count
      exact ⟨1, .assertion, by rw [walk, body_fails inside fails], nofun⟩
  | last inside passes ends =>
      subst here count
      have size := toNat_size_past w bytes
      rw [Walk.Left] at left
      rw [if_pos (by omega)] at size
      refine ⟨1, .finished, ?_, nofun⟩
      rw [walk_passes 0 inside passes, if_neg]
      rw [zero_lt_iff]
      omega
  | next inside passes goesOn _ _ ih =>
      subst here count
      obtain ⟨fuel, stop, run, within⟩ := ih (walk_next 0 left inside passes goesOn).2 rfl rfl
      exact ⟨fuel + 1, stop, (walk_next fuel left inside passes goesOn).1.trans run, within⟩

end

/-- The walk over a table ends without reading outside the table if and only if the table is a
chain of sub-structures. -/
theorem total_iff (device : BitVec 32 → Ioapic) (table : Madt) :
    Total device table ↔ Chain device table.bytes 0 madtSize := by
  have start : Walk.Left ⟨madtSize,
      BitVec.ofNat 32 table.bytes.length - BitVec.ofNat 32 madtSize, 0⟩ table.bytes := by
    have whole := table.whole
    have fits := table.fits
    simp only [Walk.Left, madtSize, BitVec.toNat_sub, BitVec.toNat_ofNat] at *
    omega
  simp only [Total, acpiInit, table.headerLength]
  constructor
  · rintro ⟨fuel, stop, run, within⟩
    exact chain_of_walk start run within
  · intro chain
    exact walk_of_chain chain start rfl rfl

/-- A table of 44 bytes, with the bytes of `rest` behind its header. -/
def sampleBytes (rest : Bytes) : Bytes :=
  [0, 0, 0, 0, BitVec.ofNat 8 (madtSize + rest.length), 0, 0, 0] ++ List.replicate 36 0 ++ rest

/-- A table without sub-structures. -/
def emptyMadt : Madt := ⟨sampleBytes [], by decide, by decide, by decide⟩

/-- A table with a local APIC structure whose length is 0. -/
def stuckMadt : Madt := ⟨sampleBytes [0, 0], by decide, by decide, by decide⟩

example : Chain (fun _ => Ioapic.sample) (sampleBytes [0, 8, 0, 0, 1, 0, 0, 0]) 0 madtSize :=
  .last (by decide) (by decide) (by decide)

/-- The walk reads behind a table without sub-structures, and it never ends on a sub-structure
with length 0. -/
theorem exists_not_total :
    ¬ Total (fun _ => Ioapic.sample) emptyMadt ∧
      acpiInit (fun _ => Ioapic.sample) emptyMadt.bytes 1 = some .outside ∧
      ¬ Total (fun _ => Ioapic.sample) stuckMadt ∧
      ∀ fuel, acpiInit (fun _ => Ioapic.sample) stuckMadt.bytes fuel = none := by
  have outside : ∀ fuel, acpiInit (fun _ => Ioapic.sample) emptyMadt.bytes (fuel + 1) =
      some .outside := fun _ => rfl
  have forever : ∀ fuel, acpiInit (fun _ => Ioapic.sample) stuckMadt.bytes fuel = none := by
    intro fuel
    induction fuel with
    | zero => rfl
    | succ fuel ih => exact ih
  refine ⟨?_, outside 0, ?_, forever⟩
  · rintro ⟨fuel, stop, run, within⟩
    cases fuel with
    | zero => cases run
    | succ fuel => exact within (Option.some.inj ((outside fuel).symm.trans run)).symm
  · rintro ⟨fuel, stop, run, _⟩
    rw [forever] at run
    cases run

end EBBLib.Acpi
