import EBBLib.Library.BitField
import EBBLib.Library.LastWrite
import Mathlib.Logic.Function.Basic
import Mathlib.Tactic.IntervalCases

/-!
# The target registers of the interrupt controller

The controller of `bic.c` has 15 groups of 32 interrupts. Each group has four target registers
with 4 bits for each of eight interrupts, the first one in the highest bits. `set_target` takes
the register from the interrupt number divided by 8, but it takes the position in the register
from the whole number, in 8-bit arithmetic. From interrupt 8 on the shift amount is at least
32, for which a shift of a 32-bit word has no value.
-/

namespace EBBLib.Bic

/-- `BIC_NUM_GROUPS`. -/
def numGroups : Nat := 15

/-- `BIC_NUM_IRQS`. -/
def numIrqs : Nat := 32

/-- `enum bic_int_type`. -/
inductive IntType where
  | noncrit
  | crit
  | machineCheck
deriving DecidableEq, Repr

/-- The value of an enumerator. -/
def IntType.value : IntType → Nat
  | .noncrit => 0
  | .crit => 1
  | .machineCheck => 2

/-- `target_irq[j]` of `groups[i]`. -/
abbrev Targets := Nat → Nat → BitVec 32

/-- Store to a target register. -/
def store (regs : Targets) (group reg : Nat) (val : BitVec 32) : Targets :=
  Function.update regs group (Function.update (regs group) reg val)

/-- `irq_to_target_index`. -/
def irqToTargetIndex (irq : BitVec 8) : BitVec 8 := irq / 8#8

/-- The `offset` of `set_target`, which is a `uint8_t`. -/
def offset (irq : BitVec 8) : BitVec 8 := 28#8 - irq * 4#8

/-- `set_target`. A shift by 32 or more has no value. -/
def setTarget (group irq target : BitVec 8) (regs : Targets) : Option Targets :=
  let offset := (offset irq).toNat
  let reg := (irqToTargetIndex irq).toNat
  if offset < 32 then
    let val := regs group.toNat reg
    let val := val &&& ~~~(0xf#32 <<< offset)
    let val := val ||| (target &&& 0xf#8).setWidth 32 <<< offset
    some (store regs group.toNat reg val)
  else none

/-- `bic_disable_irq`. It returns `none` when an assertion fails. -/
def bicDisableIrq (group irq : BitVec 8) (regs : Targets) : Option Targets :=
  if group.toNat < numGroups ∧ irq.toNat < numIrqs then setTarget group irq 0 regs else none

/-- `bic_enable_irq`. It returns `none` when an assertion fails. -/
def bicEnableIrq (group irq : BitVec 8) (type : IntType) (loc : Int) (regs : Targets) :
    Option Targets :=
  if group.toNat < numGroups ∧ irq.toNat < numIrqs ∧ -1 ≤ loc ∧ loc ≤ 3 then
    let target := BitVec.ofNat 8 (type.value + 1)
    let target := if loc ≠ -1 then target <<< 2 ||| BitVec.ofInt 8 loc else target
    setTarget group irq target regs
  else none

/-- A call of one of the two functions. -/
inductive Call where
  | enable (group irq : BitVec 8) (type : IntType) (loc : Int)
  | disable (group irq : BitVec 8)
deriving DecidableEq, Repr

namespace Call

def group : Call → BitVec 8
  | .enable group _ _ _ => group
  | .disable group _ => group

def irq : Call → BitVec 8
  | .enable _ irq _ _ => irq
  | .disable _ irq => irq

/-- What the assertions of the functions demand. -/
def Valid : Call → Prop
  | .enable group irq _ loc =>
      group.toNat < numGroups ∧ irq.toNat < numIrqs ∧ -1 ≤ loc ∧ loc ≤ 3
  | .disable group irq => group.toNat < numGroups ∧ irq.toNat < numIrqs

instance : (call : Call) → Decidable call.Valid
  | .enable .. => inferInstanceAs (Decidable (_ ∧ _))
  | .disable .. => inferInstanceAs (Decidable (_ ∧ _))

/-- The target that a call asks for: the type on all cores or on one core, or none. -/
def target : Call → BitVec 4
  | .enable _ _ type loc =>
      if loc = -1 then BitVec.ofNat 4 (type.value + 1)
      else BitVec.ofInt 4 ((type.value + 1) * 4 + loc)
  | .disable _ _ => 0

/-- The call itself. -/
def perform : Call → Targets → Option Targets
  | .enable group irq type loc => bicEnableIrq group irq type loc
  | .disable group irq => bicDisableIrq group irq

/-- The target that a call writes to the field of an interrupt. -/
def writes (group irq : Nat) (call : Call) : Option (BitVec 4) :=
  if call.group.toNat = group ∧ call.irq.toNat = irq then some call.target else none

end Call

/-- Calls from any content of the registers. -/
def machine : Machine Targets Call where
  init _ := True
  step regs call := call.perform regs

/-- The lowest bit of the field of an interrupt in its register. -/
def fieldStart (irq : Nat) : Nat := 28 - 4 * (irq % 8)

/-- The 4 bits of an interrupt. -/
def field (regs : Targets) (group irq : Nat) : BitVec 4 :=
  BitField.get (fieldStart irq) 4 (regs group (irq / 8))

/-- The fields are independent cells in a run from `regs` to `regs'`. -/
structure Independent (calls : List Call) (regs regs' : Targets) : Prop where
  /-- Every field holds the target last set, or its initial value. -/
  fields : ∀ group < numGroups, ∀ irq < numIrqs,
    field regs' group irq =
      (lastWrite (Call.writes group irq) calls).getD (field regs group irq)
  /-- The shifts have a value. -/
  shifts : ∀ call ∈ calls, (offset call.irq).toNat < 32

section

variable {regs regs' : Targets} {call : Call}

/-- The shift amount is right for the first eight interrupts. -/
theorem offset_toNat {irq : BitVec 8} (first : irq.toNat < 8) :
    (offset irq).toNat = fieldStart irq.toNat := by
  simp only [offset, fieldStart, BitVec.toNat_sub, BitVec.toNat_mul, BitVec.toNat_ofNat]
  omega

/-- From the ninth interrupt on it is not below 32. -/
theorem offset_lt_iff {irq : BitVec 8} (bound : irq.toNat < numIrqs) :
    (offset irq).toNat < 32 ↔ irq.toNat < 8 := by
  simp only [numIrqs] at bound
  simp only [offset, BitVec.toNat_sub, BitVec.toNat_mul, BitVec.toNat_ofNat]
  omega

theorem store_apply (group reg group' reg' : Nat) (val : BitVec 32) :
    store regs group reg val group' reg' =
      if group' = group ∧ reg' = reg then val else regs group' reg' := by
  by_cases here : group' = group
  · subst here
    simp [store, Function.update_apply]
  · simp [store, here]

/-- The low bits of a target. -/
theorem setWidth_and (target : BitVec 8) :
    (target &&& 0xf#8).setWidth 32 = (target.setWidth 4).setWidth 32 := by
  have ones : 0xf#8 = (BitVec.allOnes 4).setWidth 8 := by decide
  refine BitVec.eq_of_getLsbD_eq fun i _ => ?_
  rw [ones]
  simp only [BitVec.getLsbD_setWidth, BitVec.getLsbD_and, BitVec.getLsbD_allOnes]
  by_cases low : i < 4
  · simp [low, show i < 8 by omega]
  · simp [low]

/-- `set_target` writes one field, where its shift is the right one. -/
theorem setTarget_eq {group irq : BitVec 8} (target : BitVec 8) (first : irq.toNat < 8) :
    setTarget group irq target regs =
      some (store regs group.toNat 0
        (BitField.set (fieldStart irq.toNat) (target.setWidth 4) (regs group.toNat 0))) := by
  have reg : (irqToTargetIndex irq).toNat = 0 := by
    rw [irqToTargetIndex, BitVec.toNat_udiv]
    exact Nat.div_eq_of_lt first
  have below : fieldStart irq.toNat < 32 := by
    simp only [fieldStart]
    omega
  have ones : (BitVec.allOnes 4).setWidth 32 = 0xf#32 := by decide
  simp only [setTarget, reg, offset_toNat first, if_pos below, BitField.set, BitField.mask, ones,
    setWidth_and]

/-- The effect of `set_target` on the fields. -/
theorem field_setTarget {group irq target : BitVec 8} {g i : Nat} (first : irq.toNat < 8)
    (run : setTarget group irq target regs = some regs') :
    field regs' g i =
      if group.toNat = g ∧ irq.toNat = i then target.setWidth 4 else field regs g i := by
  rw [setTarget_eq target first, Option.some.injEq] at run
  subst run
  rw [field, store_apply]
  by_cases same : group.toNat = g ∧ irq.toNat = i
  · obtain ⟨rfl, rfl⟩ := same
    rw [if_pos ⟨rfl, Nat.div_eq_of_lt first⟩, if_pos ⟨rfl, rfl⟩, BitField.get_set]
    simp only [fieldStart]
    omega
  · rw [if_neg same]
    by_cases here : g = group.toNat ∧ i / 8 = 0
    · -- Another field of the same register.
      obtain ⟨rfl, word⟩ := here
      have other : irq.toNat ≠ i := fun clash => same ⟨rfl, clash⟩
      rw [if_pos ⟨rfl, word⟩, BitField.get_set_of_apart, field, word]
      · simp only [fieldStart]
        omega
      · simp only [BitField.Apart, fieldStart]
        omega
    · rw [if_neg here, field]

/-- Both functions are `set_target` with a byte whose low bits are the target. -/
theorem perform_eq (valid : call.Valid) (regs : Targets) :
    ∃ byte : BitVec 8, byte.setWidth 4 = call.target ∧
      call.perform regs = setTarget call.group call.irq byte regs := by
  cases call with
  | enable group irq type loc =>
      obtain ⟨inGroups, inIrqs, lower, upper⟩ := valid
      refine ⟨_, ?_, if_pos ⟨inGroups, inIrqs, lower, upper⟩⟩
      simp only [Call.target]
      interval_cases loc <;> cases type <;> rfl
  | disable group irq => exact ⟨0, rfl, if_pos valid⟩

theorem Call.Valid.irq_lt (valid : call.Valid) : call.irq.toNat < numIrqs := by
  cases call with
  | enable => exact valid.2.1
  | disable => exact valid.2

/-- A call for one of the first eight interrupts gets through. -/
theorem perform_isSome (valid : call.Valid) (first : call.irq.toNat < 8) (regs : Targets) :
    (call.perform regs).isSome := by
  obtain ⟨byte, _, run⟩ := perform_eq valid regs
  rw [run, setTarget_eq byte first]
  rfl

/-- It writes the field of its interrupt and no other one. -/
theorem field_perform {group irq : Nat} (valid : call.Valid) (first : call.irq.toNat < 8)
    (run : call.perform regs = some regs') :
    field regs' group irq = (call.writes group irq).getD (field regs group irq) := by
  obtain ⟨byte, low, performed⟩ := perform_eq valid regs
  rw [field_setTarget first (performed.symm.trans run), low, Call.writes]
  by_cases same : call.group.toNat = group ∧ call.irq.toNat = irq
  · rw [if_pos same, if_pos same, Option.getD_some]
  · rw [if_neg same, if_neg same, Option.getD_none]

end

/-- The target fields behave as independent cells in the sequences of calls that are for the
first eight interrupts of their groups, and in no others. -/
theorem independent_iff {calls : List Call} (valid : ∀ call ∈ calls, call.Valid)
    (regs : Targets) :
    (∃ regs', machine.exec regs calls = some regs' ∧ Independent calls regs regs') ↔
      ∀ call ∈ calls, call.irq.toNat < 8 := by
  constructor
  · rintro ⟨regs', _, independent⟩ call mem
    exact (offset_lt_iff (valid call mem).irq_lt).mp (independent.shifts call mem)
  · intro first
    have enabled := Machine.exec_isSome (M := machine) (s := regs) fun call mem regs =>
      perform_isSome (valid call mem) (first call mem) regs
    obtain ⟨regs', run⟩ := Option.isSome_iff_exists.mp enabled
    refine ⟨regs', run, fun group _ irq _ => ?_, fun call mem => ?_⟩
    · exact Machine.exec_lastWrite (field · group irq) (Call.writes group irq) run
        fun call mem s t moved => field_perform (valid call mem) (first call mem) moved
    · exact (offset_lt_iff (valid call mem).irq_lt).mpr (first call mem)

/-- Interrupt 3 goes to core 2, interrupt 4 to all cores, and interrupt 3 is disabled. -/
theorem independent_iff_sample :
    (∃ regs', machine.exec (fun _ _ => 0xffffffff)
        [.enable 0 3 .crit 2, .enable 0 4 .noncrit (-1), .disable 0 3] = some regs' ∧
      Independent [.enable 0 3 .crit 2, .enable 0 4 .noncrit (-1), .disable 0 3]
        (fun _ _ => 0xffffffff) regs') ↔
      ∀ call ∈ [.enable 0 3 .crit 2, .enable 0 4 .noncrit (-1), .disable 0 3],
        (Call.irq call).toNat < 8 :=
  independent_iff (by decide) _

/-- The ninth interrupt of a group: the shift amount is 252. -/
theorem exists_not_independent :
    Call.Valid (.enable 0 8 .noncrit 0) ∧ (offset 8).toNat = 252 ∧
      ¬ ∃ regs', machine.exec (fun _ _ => 0) [.enable 0 8 .noncrit 0] = some regs' ∧
        Independent [.enable 0 8 .noncrit 0] (fun _ _ => 0) regs' := by
  refine ⟨by decide, by decide, ?_⟩
  rintro ⟨regs', _, independent⟩
  have below := independent.shifts _ List.mem_cons_self
  revert below
  decide

end EBBLib.Bic
