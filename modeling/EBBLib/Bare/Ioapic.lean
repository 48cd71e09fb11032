import EBBLib.Library.BitField
import EBBLib.Library.LastWrite
import Mathlib.Logic.Function.Basic

/-!
# The redirection table of the IO-APIC

The registers of the IO-APIC are accessed one at a time: a store to `IOREGSEL` selects the
register that `IOWIN` then stands for. An entry of the redirection table has two registers,
which the functions of `ioapic.h` read into the two words of a bit-field record, change and
write back. `ioapic_map_vec` assigns the vector to the destination of the record and leaves the
vector field as it is.
-/

namespace EBBLib

/-- `IOREGSEL`, and the registers behind `IOWIN`. -/
structure Ioapic where
  ioregsel : BitVec 32
  regs : BitVec 8 → BitVec 32

namespace Ioapic

/-- `IOAPIC_VERSION`. -/
def versionReg : Nat := 1

/-- `IOAPIC_REDTBL_START`. -/
def redtblStart : Nat := 0x10

/-- The register that is selected, by the field `addr` of `ioregsel`. -/
def selected (d : Ioapic) : BitVec 8 := BitField.get 0 8 d.ioregsel

/-- A store to `IOREGSEL`. -/
def select (d : Ioapic) (reg : BitVec 32) : Ioapic := { d with ioregsel := reg }

/-- A load from `IOWIN`. -/
def load (d : Ioapic) : BitVec 32 := d.regs d.selected

/-- A store to `IOWIN`. -/
def store (d : Ioapic) (val : BitVec 32) : Ioapic :=
  { d with regs := Function.update d.regs d.selected val }

/-- `ioredirect`: the two words of the union. -/
structure Ioredirect where
  val0 : BitVec 32
  val1 : BitVec 32
deriving DecidableEq, Repr

namespace Ioredirect

/-- The record as one word, whose bits the fields are counted in. -/
def raw (ior : Ioredirect) : BitVec 64 := ior.val1 ++ ior.val0

/-- The words of a record. -/
def ofRaw (x : BitVec 64) : Ioredirect := ⟨x.setWidth 32, x.extractLsb' 32 32⟩

/-- An assignment to `mask`. -/
def setMask (ior : Ioredirect) (mask : BitVec 1) : Ioredirect :=
  ofRaw (BitField.set 16 mask ior.raw)

/-- An assignment to `destination`. -/
def setDestination (ior : Ioredirect) (destination : BitVec 8) : Ioredirect :=
  ofRaw (BitField.set 56 destination ior.raw)

end Ioredirect

/-- The first register of an entry. -/
def regOf (interrupt : BitVec 8) : BitVec 32 := BitVec.ofNat 32 (redtblStart + interrupt.toNat * 2)

/-- `ioapic_read_ioredirect`. It returns `none` when its assertion fails. -/
def readIoredirect (interrupt : BitVec 8) (d : Ioapic) : Option (Ioredirect × Ioapic) :=
  if interrupt.toNat ≤ 23 then
    let reg := regOf interrupt
    let d := d.select reg
    let val0 := d.load
    let d := d.select (reg + 1)
    let val1 := d.load
    some (⟨val0, val1⟩, d)
  else none

/-- `ioapic_write_ioredirect`. It returns `none` when its assertion fails. -/
def writeIoredirect (interrupt : BitVec 8) (ior : Ioredirect) (d : Ioapic) : Option Ioapic :=
  if interrupt.toNat ≤ 23 then
    let reg := regOf interrupt
    let d := (d.select reg).store ior.val0
    some ((d.select (reg + 1)).store ior.val1)
  else none

/-- Read an entry, change the record and write it back. -/
def modify (interrupt : BitVec 8) (change : Ioredirect → Ioredirect) (d : Ioapic) :
    Option Ioapic :=
  (readIoredirect interrupt d).bind fun (ior, d) => writeIoredirect interrupt (change ior) d

/-- `ioapic_disable_interrupt`. -/
def disableInterrupt (interrupt : BitVec 8) : Ioapic → Option Ioapic :=
  modify interrupt fun ior => ior.setMask 1

/-- `ioapic_enable_interrupt`. -/
def enableInterrupt (interrupt : BitVec 8) : Ioapic → Option Ioapic :=
  modify interrupt fun ior => ior.setMask 0

/-- `ioapic_map_vec`. -/
def mapVec (interrupt vector : BitVec 8) (d : Ioapic) : Option Ioapic :=
  if 0x10 ≤ vector.toNat ∧ vector.toNat ≤ 0xFE then
    modify interrupt (fun ior => ior.setDestination vector) d
  else none

/-- `init_ioapic`: it asserts the version and disables all interrupts. -/
def initIoapic (d : Ioapic) : Option Ioapic :=
  let d := d.select (BitVec.ofNat 32 versionReg)
  if BitField.get 0 8 d.load = 0x11#8 then
    (List.range 24).foldlM (fun d i => disableInterrupt (BitVec.ofNat 8 i) d) d
  else none

/-! ### What the functions do to the table -/

/-- An entry of the redirection table. -/
def entry (d : Ioapic) (i : Nat) : BitVec 64 :=
  d.regs (BitVec.ofNat 8 (redtblStart + 2 * i + 1)) ++ d.regs (BitVec.ofNat 8 (redtblStart + 2 * i))

section

variable {d d' : Ioapic} {interrupt : BitVec 8} {i : Nat}

@[simp] theorem raw_ofRaw (x : BitVec 64) : (Ioredirect.ofRaw x).raw = x := by
  refine BitVec.eq_of_getLsbD_eq fun i hi => ?_
  rw [Ioredirect.raw, Ioredirect.ofRaw, BitVec.getLsbD_append]
  by_cases low : i < 32
  · simp [low]
  · simp [low, show i - 32 < 32 by omega, show 32 + (i - 32) = i by omega]

theorem raw_setMask (ior : Ioredirect) (mask : BitVec 1) :
    (ior.setMask mask).raw = BitField.set 16 mask ior.raw := raw_ofRaw _

theorem raw_setDestination (ior : Ioredirect) (destination : BitVec 8) :
    (ior.setDestination destination).raw = BitField.set 56 destination ior.raw := raw_ofRaw _

@[simp] theorem selected_select (n : Nat) :
    (d.select (BitVec.ofNat 32 n)).selected = BitVec.ofNat 8 n := by
  refine BitVec.eq_of_toNat_eq ?_
  simp only [selected, select, BitField.get, BitVec.extractLsb'_toNat, BitVec.toNat_ofNat,
    Nat.shiftRight_zero]
  omega

theorem regOf_add_one (interrupt : BitVec 8) :
    regOf interrupt + 1 = BitVec.ofNat 32 (redtblStart + interrupt.toNat * 2 + 1) :=
  (BitVec.ofNat_add _ 1).symm

/-- A load from a register that was selected. -/
theorem load_select (n : Nat) :
    (d.select (BitVec.ofNat 32 n)).load = d.regs (BitVec.ofNat 8 n) := by
  rw [load, selected_select]
  rfl

theorem regs_store (n : Nat) (val : BitVec 32) :
    ((d.select (BitVec.ofNat 32 n)).store val).regs =
      Function.update d.regs (BitVec.ofNat 8 n) val := by
  rw [store, selected_select]
  rfl

/-- A read returns the entry and leaves the registers alone. -/
theorem readIoredirect_eq (inside : interrupt.toNat ≤ 23) :
    ∃ ior d', readIoredirect interrupt d = some (ior, d') ∧
      ior.raw = entry d interrupt.toNat ∧ d'.regs = d.regs := by
  refine ⟨_, _, if_pos inside, ?_, rfl⟩
  rw [Ioredirect.raw, entry, regOf_add_one, regOf, load_select, load_select,
    Nat.mul_comm 2]
  rfl

theorem index_inj {m n : Nat} (hm : m < 256) (hn : n < 256) :
    BitVec.ofNat 8 m = BitVec.ofNat 8 n ↔ m = n := by
  constructor
  · intro same
    have := congrArg BitVec.toNat same
    simp only [BitVec.toNat_ofNat] at this
    omega
  · exact fun same => same ▸ rfl

/-- The registers after a store to a register that was selected. -/
theorem regs_store_apply {m n : Nat} (hm : m < 256) (hn : n < 256) (val : BitVec 32) :
    ((d.select (BitVec.ofNat 32 n)).store val).regs (BitVec.ofNat 8 m) =
      if m = n then val else d.regs (BitVec.ofNat 8 m) := by
  rw [regs_store, Function.update_apply]
  by_cases same : m = n
  · rw [if_pos same, if_pos ((index_inj hm hn).mpr same)]
  · rw [if_neg same, if_neg fun clash => same ((index_inj hm hn).mp clash)]

/-- A write replaces one entry. -/
theorem writeIoredirect_eq (inside : interrupt.toNat ≤ 23) (ior : Ioredirect) :
    ∃ d', writeIoredirect interrupt ior d = some d' ∧
      ∀ i ≤ 23, entry d' i = if interrupt.toNat = i then ior.raw else entry d i := by
  refine ⟨_, if_pos inside, fun i hi => ?_⟩
  have start : redtblStart = 16 := rfl
  have low : redtblStart + 2 * i < 256 := by omega
  have high : redtblStart + 2 * i + 1 < 256 := by omega
  have first : redtblStart + interrupt.toNat * 2 < 256 := by omega
  have second : redtblStart + interrupt.toNat * 2 + 1 < 256 := by omega
  rw [entry, regOf_add_one, regs_store_apply high second, regs_store_apply low second, regOf,
    regs_store_apply high first, regs_store_apply low first]
  by_cases same : interrupt.toNat = i
  · rw [if_pos same, if_pos (by omega), if_neg (by omega), if_pos (by omega)]
    rfl
  · rw [if_neg same, if_neg (by omega), if_neg (by omega), if_neg (by omega), if_neg (by omega)]
    rfl

/-- The change of a record is a change of one entry. -/
theorem modify_eq {change : Ioredirect → Ioredirect} (f : BitVec 64 → BitVec 64)
    (changes : ∀ ior, (change ior).raw = f ior.raw) (inside : interrupt.toNat ≤ 23)
    (d : Ioapic) :
    ∃ d', modify interrupt change d = some d' ∧
      ∀ i ≤ 23, entry d' i = if interrupt.toNat = i then f (entry d i) else entry d i := by
  obtain ⟨ior, middle, read, raw, regs⟩ := readIoredirect_eq (d := d) inside
  obtain ⟨d', written, entries⟩ := writeIoredirect_eq (d := middle) inside (change ior)
  refine ⟨d', by rw [modify, read]; exact written, fun i hi => ?_⟩
  have same : entry middle i = entry d i := by rw [entry, entry, regs]
  rw [entries i hi, changes, raw, same]
  exact ite_congr rfl (fun here => here ▸ rfl) fun _ => rfl

/-- Disabling a list of interrupts that the table has gets through. -/
theorem disable_isSome {is : List Nat} (inside : ∀ i ∈ is, i ≤ 23) (d : Ioapic) :
    (is.foldlM (fun d i => disableInterrupt (BitVec.ofNat 8 i) d) d).isSome := by
  induction is generalizing d with
  | nil => rfl
  | cons i is ih =>
      obtain ⟨first, later⟩ := List.forall_mem_cons.mp inside
      have small : (BitVec.ofNat 8 i).toNat ≤ 23 := by
        rw [BitVec.toNat_ofNat]
        omega
      obtain ⟨d', run, _⟩ := modify_eq _ (raw_setMask · 1) small d
      rw [List.foldlM_cons, disableInterrupt, run]
      exact ih later d'

/-- `init_ioapic` gets through on an IO-APIC of the right version, and on no other one. -/
theorem initIoapic_isSome_iff :
    (initIoapic d).isSome ↔ BitField.get 0 8 (d.regs (BitVec.ofNat 8 versionReg)) = 0x11#8 := by
  simp only [initIoapic, load_select]
  by_cases version : BitField.get 0 8 (d.regs (BitVec.ofNat 8 versionReg)) = 0x11#8
  · have table : ∀ i ∈ List.range 24, i ≤ 23 := fun i mem => by
      have := List.mem_range.mp mem
      omega
    rw [if_pos version, disable_isSome table]
    exact iff_of_true rfl version
  · rw [if_neg version]
    exact iff_of_false Bool.false_ne_true version

end

/-! ### Sequences of operations -/

/-- The start and the width of a bit field. -/
structure Field where
  start : Nat
  width : Nat
deriving DecidableEq, Repr

/-- The value of a field in an entry. -/
def Field.of (f : Field) (x : BitVec 64) : BitVec f.width := BitField.get f.start f.width x

abbrev intvec : Field := ⟨0, 8⟩
abbrev delmod : Field := ⟨8, 3⟩
abbrev destmod : Field := ⟨11, 1⟩
abbrev delivs : Field := ⟨12, 1⟩
abbrev intpol : Field := ⟨13, 1⟩
abbrev remoteIrr : Field := ⟨14, 1⟩
abbrev triggerMode : Field := ⟨15, 1⟩
abbrev mask : Field := ⟨16, 1⟩
abbrev reserved : Field := ⟨17, 39⟩
abbrev destination : Field := ⟨56, 8⟩

/-- A call of one of the three functions. -/
inductive Op where
  | mapVec (interrupt vector : BitVec 8)
  | enable (interrupt : BitVec 8)
  | disable (interrupt : BitVec 8)
deriving DecidableEq, Repr

namespace Op

def interrupt : Op → BitVec 8
  | .mapVec interrupt _ => interrupt
  | .enable interrupt => interrupt
  | .disable interrupt => interrupt

/-- What the assertions of the functions demand. -/
def Valid : Op → Prop
  | .mapVec interrupt vector =>
      interrupt.toNat ≤ 23 ∧ 0x10 ≤ vector.toNat ∧ vector.toNat ≤ 0xFE
  | .enable interrupt => interrupt.toNat ≤ 23
  | .disable interrupt => interrupt.toNat ≤ 23

instance : (op : Op) → Decidable op.Valid
  | .mapVec .. => inferInstanceAs (Decidable (_ ∧ _))
  | .enable .. => inferInstanceAs (Decidable (_ ≤ _))
  | .disable .. => inferInstanceAs (Decidable (_ ≤ _))

/-- The call itself. -/
def perform : Op → Ioapic → Option Ioapic
  | .mapVec interrupt vector => Ioapic.mapVec interrupt vector
  | .enable interrupt => enableInterrupt interrupt
  | .disable interrupt => disableInterrupt interrupt

/-- The vector that an operation maps for an entry. -/
def maps (i : Nat) : Op → Option (BitVec 8)
  | .mapVec interrupt vector => if interrupt.toNat = i then some vector else none
  | _ => none

/-- The mask bit that an operation sets in an entry. -/
def masks (i : Nat) : Op → Option (BitVec 1)
  | .mapVec _ _ => none
  | .enable interrupt => if interrupt.toNat = i then some 0 else none
  | .disable interrupt => if interrupt.toNat = i then some 1 else none

/-- The field that an operation writes. -/
def field : Op → Field
  | .mapVec _ _ => destination
  | .enable _ => Ioapic.mask
  | .disable _ => Ioapic.mask

/-- What an operation makes of the entry of its interrupt. -/
def apply : Op → BitVec 64 → BitVec 64
  | .mapVec _ vector => BitField.set 56 vector
  | .enable _ => BitField.set 16 0#1
  | .disable _ => BitField.set 16 1#1

end Op

/-- Operations from any content of the registers. -/
def machine : Machine Ioapic Op where
  init _ := True
  step d op := op.perform d

/-- The fields of `ioredirect` but for the vector and the mask. -/
def otherFields : List Field :=
  [delmod, destmod, delivs, intpol, remoteIrr, triggerMode, reserved, destination]

/-- The operations touch only what they name: the vector field of an entry is the vector last
mapped for it, the mask bit is as last enabled or disabled, and the rest stays. -/
structure OnlyNamed (ops : List Op) (d d' : Ioapic) : Prop where
  vectors : ∀ i ≤ 23, intvec.of (entry d' i) =
    (lastWrite (Op.maps i) ops).getD (intvec.of (entry d i))
  masks : ∀ i ≤ 23, mask.of (entry d' i) = (lastWrite (Op.masks i) ops).getD (mask.of (entry d i))
  others : ∀ i ≤ 23, ∀ f ∈ otherFields, f.of (entry d' i) = f.of (entry d i)

section

variable {d d' : Ioapic} {op : Op} {ops : List Op} {i : Nat}

/-- The effect of an operation on the entries. -/
theorem perform_eq (valid : op.Valid) (d : Ioapic) :
    ∃ d', op.perform d = some d' ∧ ∀ i ≤ 23,
      entry d' i = if op.interrupt.toNat = i then op.apply (entry d i) else entry d i := by
  cases op with
  | mapVec interrupt vector =>
      obtain ⟨inside, vectors⟩ := valid
      obtain ⟨d', run, entries⟩ := modify_eq _ (raw_setDestination · vector) inside d
      exact ⟨d', (if_pos vectors).trans run, entries⟩
  | enable interrupt => exact modify_eq _ (raw_setMask · 0) valid d
  | disable interrupt => exact modify_eq _ (raw_setMask · 1) valid d

/-- What an operation does to the entry of its interrupt. -/
theorem entry_perform (run : op.perform d = some d') (valid : op.Valid) (hi : i ≤ 23)
    (here : op.interrupt.toNat = i) : entry d' i = op.apply (entry d i) := by
  obtain ⟨d'', run', entries⟩ := perform_eq valid d
  obtain rfl : d'' = d' := Option.some.inj (run'.symm.trans run)
  rw [entries i hi, if_pos here]

/-- The entries of other interrupts stay. -/
theorem entry_perform_of_ne (run : op.perform d = some d') (valid : op.Valid) (hi : i ≤ 23)
    (other : op.interrupt.toNat ≠ i) : entry d' i = entry d i := by
  obtain ⟨d'', run', entries⟩ := perform_eq valid d
  obtain rfl : d'' = d' := Option.some.inj (run'.symm.trans run)
  rw [entries i hi, if_neg other]

/-- A field that the operation does not write stays, in every entry. -/
theorem of_perform_of_apart {f : Field} (run : op.perform d = some d') (valid : op.Valid)
    (hi : i ≤ 23)
    (apart : BitField.Apart op.field.start op.field.width f.start f.width) :
    f.of (entry d' i) = f.of (entry d i) := by
  by_cases here : op.interrupt.toNat = i
  · rw [entry_perform run valid hi here]
    cases op <;> exact BitField.get_set_of_apart (by decide) apart
  · rw [entry_perform_of_ne run valid hi here]

theorem destination_set (v : BitVec 8) (x : BitVec 64) :
    destination.of (BitField.set 56 v x) = v := BitField.get_set (by decide)

theorem mask_set (v : BitVec 1) (x : BitVec 64) : mask.of (BitField.set 16 v x) = v :=
  BitField.get_set (by decide)

theorem destination_perform (run : op.perform d = some d') (valid : op.Valid) (hi : i ≤ 23) :
    destination.of (entry d' i) = (op.maps i).getD (destination.of (entry d i)) := by
  have maskApart : BitField.Apart mask.start mask.width destination.start destination.width := by
    decide
  cases op with
  | mapVec interrupt vector =>
      by_cases here : interrupt.toNat = i
      · rw [entry_perform run valid hi here, Op.maps, if_pos here]
        exact destination_set vector _
      · rw [entry_perform_of_ne run valid hi here, Op.maps, if_neg here]
        rfl
  | enable | disable => exact of_perform_of_apart run valid hi maskApart

theorem mask_perform (run : op.perform d = some d') (valid : op.Valid) (hi : i ≤ 23) :
    mask.of (entry d' i) = (op.masks i).getD (mask.of (entry d i)) := by
  have apart : BitField.Apart destination.start destination.width mask.start mask.width := by
    decide
  cases op with
  | mapVec => exact of_perform_of_apart run valid hi apart
  | enable interrupt | disable interrupt =>
      by_cases here : interrupt.toNat = i
      · rw [entry_perform run valid hi here, Op.masks, if_pos here]
        exact mask_set _ _
      · rw [entry_perform_of_ne run valid hi here, Op.masks, if_neg here]
        rfl

/-- A field that no operation writes stays in a run. -/
theorem of_exec {f : Field} (run : machine.exec d ops = some d') (valid : ∀ op ∈ ops, op.Valid)
    (hi : i ≤ 23)
    (apart : ∀ op : Op, BitField.Apart op.field.start op.field.width f.start f.width) :
    f.of (entry d' i) = f.of (entry d i) :=
  Machine.exec_unwritten (fun d => f.of (entry d i)) run
    fun op mem _ _ moved => of_perform_of_apart moved (valid op mem) hi (apart op)

/-- The vector field and all other fields but the destination are apart from what the
operations write. -/
theorem apart_field {f : Field} (unwritten : f = intvec ∨ f ∈ otherFields ∧ f ≠ destination)
    (op : Op) : BitField.Apart op.field.start op.field.width f.start f.width := by
  have table : ∀ f ∈ intvec :: otherFields, f ≠ destination →
      BitField.Apart destination.start destination.width f.start f.width ∧
        BitField.Apart mask.start mask.width f.start f.width := by decide
  have here := table f (by rcases unwritten with rfl | ⟨mem, _⟩ <;> simp [*])
    (by rcases unwritten with rfl | ⟨_, other⟩ <;> [decide; exact other])
  cases op with
  | mapVec => exact here.1
  | enable | disable => exact here.2

theorem exec_isSome (valid : ∀ op ∈ ops, op.Valid) (d : Ioapic) :
    (machine.exec d ops).isSome := by
  refine Machine.exec_isSome fun op mem d => ?_
  obtain ⟨d', run, _⟩ := perform_eq (valid op mem) d
  exact Option.isSome_iff_exists.mpr ⟨d', run⟩

end

/-- The vector last mapped for an entry is the one that its vector field and its destination
held already. -/
def Repeats (ops : List Op) (d : Ioapic) : Prop :=
  ∀ i ≤ 23, ∀ v ∈ lastWrite (Op.maps i) ops,
    intvec.of (entry d i) = v ∧ destination.of (entry d i) = v

/-- Routing updates touch only what they name if and only if no vector is mapped that is not
both in the vector field and in the destination of its entry from the start. -/
theorem onlyNamed_iff {ops : List Op} (valid : ∀ op ∈ ops, op.Valid) (d : Ioapic) :
    (∃ d', machine.exec d ops = some d' ∧ OnlyNamed ops d d') ↔ Repeats ops d := by
  obtain ⟨d', run⟩ := Option.isSome_iff_exists.mp (exec_isSome valid d)
  have vectors : ∀ i ≤ 23, intvec.of (entry d' i) = intvec.of (entry d i) := fun i hi =>
    of_exec run valid hi (apart_field (.inl rfl))
  have destinations : ∀ i ≤ 23, destination.of (entry d' i) =
      (lastWrite (Op.maps i) ops).getD (destination.of (entry d i)) := fun i hi =>
    Machine.exec_lastWrite (fun d => destination.of (entry d i)) (Op.maps i) run
      fun op mem s t moved => destination_perform moved (valid op mem) hi
  constructor
  · rintro ⟨d'', run', named⟩ i hi v last
    obtain rfl : d' = d'' := Option.some.inj (run.symm.trans run')
    have vector := named.vectors i hi
    have routed := named.others i hi destination (by decide)
    rw [vectors i hi, last, Option.getD_some] at vector
    rw [destinations i hi, last, Option.getD_some] at routed
    exact ⟨vector, routed.symm⟩
  · intro repeats
    refine ⟨d', run, fun i hi => ?_, fun i hi => ?_, fun i hi f mem => ?_⟩
    · rw [vectors i hi]
      cases last : lastWrite (Op.maps i) ops with
      | none => rfl
      | some v => exact (repeats i hi v last).1
    · exact Machine.exec_lastWrite (fun d => mask.of (entry d i)) (Op.masks i) run
        fun op mem s t moved => mask_perform moved (valid op mem) hi
    · by_cases routed : f = destination
      · subst routed
        rw [destinations i hi]
        cases last : lastWrite (Op.maps i) ops with
        | none => rfl
        | some v => exact (repeats i hi v last).2.symm
      · exact of_exec run valid hi (apart_field (.inr ⟨mem, routed⟩))

/-- A table whose entries all have the vector and the destination 32. -/
def sample : Ioapic := ⟨0, fun reg => if reg.getLsbD 0 then 0x20000000 else 0x00010020⟩

theorem onlyNamed_iff_sample :
    (∃ d', machine.exec sample [.mapVec 2 32, .enable 2, .mapVec 9 33, .mapVec 9 32] = some d' ∧
      OnlyNamed [.mapVec 2 32, .enable 2, .mapVec 9 33, .mapVec 9 32] sample d') ↔
      Repeats [.mapVec 2 32, .enable 2, .mapVec 9 33, .mapVec 9 32] sample :=
  onlyNamed_iff (by decide) sample

/-- A vector that is mapped goes into the destination, and the vector field stays. -/
theorem exists_not_onlyNamed :
    Op.Valid (.mapVec 0 33) ∧
      ((machine.exec sample [.mapVec 0 33]).map fun d =>
        (intvec.of (entry d 0), destination.of (entry d 0))) = some (32, 33) ∧
      ¬ ∃ d', machine.exec sample [.mapVec 0 33] = some d' ∧
        OnlyNamed [.mapVec 0 33] sample d' := by
  have effect : ((machine.exec sample [.mapVec 0 33]).map fun d =>
      (intvec.of (entry d 0), destination.of (entry d 0))) = some (32, 33) := by decide
  refine ⟨by decide, effect, ?_⟩
  rintro ⟨d', run, named⟩
  rw [run, Option.map_some, Option.some.injEq, Prod.mk.injEq] at effect
  have vector := named.vectors 0 (by decide)
  rw [effect.1] at vector
  revert vector
  decide

end Ioapic

end EBBLib
