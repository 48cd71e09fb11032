import EBBLib.Library.Word
import Mathlib.Data.Fin.Basic

/-!
# Addresses in translation memory

`TransMem` is one global table followed by a local table for each core. An id is
the address of an entry in the local table of core 0, and the conversions of
`lrt/ulnx/trans.h` move the same offset between tables. They are translated with
their wrapping pointer arithmetic.

`localEntry` and `globalEntry` are closed forms of the addresses. Each conversion
is one of them on the ids that the tables hold, and words of different entries
have different addresses.
-/

namespace EBBLib.Trans

/-- `LRT_PIC_MAX_PICS`. -/
def maxPics : Nat := 64

/-- `LRT_TRANS_TBLSIZE`. -/
def tblSize : Nat := 2 ^ 20

/-- `sizeof(struct lrt_trans)`, which has four words. -/
def transSize : Nat := 32

/-- The number of entries in a table. -/
def numTrans : Nat := tblSize / transSize

/-- An entry of a table by its index. -/
abbrev Slot := Fin numTrans

/-- Where `struct TransMemDesc TransMem` lies. -/
structure TransMem where
  base : Nat
  fits : base + tblSize * (1 + maxPics) < 2 ^ 64

namespace TransMem

variable (T : TransMem)

/-- `lrt_trans_gmem`. -/
def gmem : Nat := T.base

/-- `lrt_trans_lmemr`, and `lrt_trans_lmem` at the caller's own id. -/
def lmemr (pic : Nat) : Nat := Word64.add (T.base + tblSize) (pic * tblSize % 2 ^ 64)

/-- `lrt_trans_idbase`. -/
def idbase : Nat := T.base + tblSize

/-- `lrt_trans_offset`. -/
def offset (base t : Nat) : Nat := Word64.sub t base

/-- `lrt_trans_id2lt` on core `myid`. -/
def id2lt (myid i : Nat) : Nat := Word64.add (T.lmemr myid) (offset T.idbase i)

/-- `lrt_trans_id2gt`. -/
def id2gt (i : Nat) : Nat := Word64.add T.gmem (offset T.idbase i)

/-- `lrt_trans_gt2id`. -/
def gt2id (t : Nat) : Nat := Word64.add T.idbase (offset T.gmem t)

/-- `lrt_trans_lt2id` on core `myid`. -/
def lt2id (myid t : Nat) : Nat := Word64.add T.idbase (offset (T.lmemr myid) t)

/-- `lrt_trans_gt2lt` on core `myid`. -/
def gt2lt (myid gt : Nat) : Nat := Word64.add (T.lmemr myid) (offset T.gmem gt)

/-- `lrt_trans_lt2gt` on core `myid`. -/
def lt2gt (myid lt : Nat) : Nat := Word64.add T.gmem (offset (T.lmemr myid) lt)

/-- `lrt_trans_id2rlt`. -/
def id2rlt (pic oid : Nat) : Nat := Word64.add (T.lmemr pic) (offset T.idbase oid)

/-- The ids of the table: the addresses in the local table of core 0 whose offset is a
multiple of the entry size. -/
def IsId (i : Nat) : Prop :=
  T.idbase ≤ i ∧ i < T.idbase + tblSize ∧ transSize ∣ i - T.idbase

/-- The id of a table slot. -/
def id (k : Slot) : Nat := T.idbase + transSize * k

/-- The entry of a slot in the local table of a core. -/
def localEntry (core : Nat) (k : Slot) : Nat := T.base + tblSize * (core + 1) + transSize * k

/-- The entry of a slot in the global table. -/
def globalEntry (k : Slot) : Nat := T.base + transSize * k

theorem id_ne_zero (k : Slot) : T.id k ≠ 0 := by
  simp only [id, idbase, tblSize]
  omega

theorem id_inj {k l : Slot} (same : T.id k = T.id l) : k = l := by
  simp only [id, transSize] at same
  exact Fin.ext (by omega)

theorem IsId.exists_slot {i : Nat} (isId : T.IsId i) : ∃ k, i = T.id k := by
  obtain ⟨start, inside, k, offset⟩ := isId
  have bound : k < numTrans := by
    simp only [numTrans, tblSize, transSize] at *
    omega
  exact ⟨⟨k, bound⟩, by simp only [id]; omega⟩

theorem isId_id (k : Slot) : T.IsId (T.id k) := by
  have bound := k.isLt
  simp only [numTrans, tblSize, transSize] at bound
  refine ⟨?_, ?_, k, ?_⟩ <;> simp only [id, tblSize, transSize] <;> omega

section Conversions

variable {core : Nat} (hc : core < maxPics) (k : Slot)

include hc in
theorem lmemr_eq : T.lmemr core = T.base + tblSize * (core + 1) := by
  have fits := T.fits
  simp only [maxPics, tblSize] at hc fits
  simp only [lmemr, tblSize]
  rw [Nat.mod_eq_of_lt (by omega), Word64.add_of_lt (by omega)]
  omega

theorem offset_id : offset T.idbase (T.id k) = transSize * k := by
  have fits := T.fits
  have bound := k.isLt
  simp only [maxPics, tblSize, numTrans, transSize] at fits bound
  simp only [offset, id, idbase, tblSize, transSize]
  rw [Word64.sub_of_le (by omega) (by omega)]
  omega

include hc in
theorem id2rlt_id : T.id2rlt core (T.id k) = T.localEntry core k := by
  have fits := T.fits
  have bound := k.isLt
  simp only [maxPics, tblSize, numTrans, transSize] at hc fits bound
  rw [id2rlt, lmemr_eq T hc, offset_id, Word64.add_of_lt]
  · rfl
  · simp only [tblSize, transSize]
    omega

include hc in
theorem id2lt_id : T.id2lt core (T.id k) = T.localEntry core k := T.id2rlt_id hc k

theorem id2gt_id : T.id2gt (T.id k) = T.globalEntry k := by
  have fits := T.fits
  have bound := k.isLt
  simp only [maxPics, tblSize, numTrans, transSize] at fits bound
  rw [id2gt, offset_id, Word64.add_of_lt]
  · rfl
  · simp only [gmem, transSize]
    omega

/-- A core finds the global entry of the local entries of its own table. -/
theorem lt2gt_localEntry (hc : core < maxPics) :
    T.lt2gt core (T.localEntry core k) = T.globalEntry k := by
  have fits := T.fits
  have bound := k.isLt
  rw [lt2gt, lmemr_eq T hc]
  simp only [maxPics, tblSize, numTrans, transSize] at hc fits bound
  simp only [offset, localEntry, gmem, tblSize, transSize]
  rw [Word64.sub_of_le (by omega) (by omega), Word64.add_of_lt (by omega), globalEntry]
  simp only [transSize]
  omega

include hc in
theorem gt2lt_globalEntry : T.gt2lt core (T.globalEntry k) = T.localEntry core k := by
  have fits := T.fits
  have bound := k.isLt
  rw [gt2lt, lmemr_eq T hc]
  simp only [maxPics, tblSize, numTrans, transSize] at hc fits bound
  simp only [offset, globalEntry, gmem, tblSize, transSize]
  rw [Word64.sub_of_le (by omega) (by omega), Word64.add_of_lt (by omega), localEntry]
  simp only [tblSize, transSize]
  omega

include hc in
theorem lt2id_localEntry : T.lt2id core (T.localEntry core k) = T.id k := by
  have fits := T.fits
  have bound := k.isLt
  rw [lt2id, lmemr_eq T hc]
  simp only [maxPics, tblSize, numTrans, transSize] at hc fits bound
  simp only [offset, localEntry, idbase, tblSize, transSize]
  rw [Word64.sub_of_le (by omega) (by omega), Word64.add_of_lt (by omega), id, idbase]
  simp only [tblSize, transSize]
  omega

theorem gt2id_globalEntry : T.gt2id (T.globalEntry k) = T.id k := by
  have fits := T.fits
  have bound := k.isLt
  simp only [maxPics, tblSize, numTrans, transSize] at fits bound
  simp only [gt2id, offset, globalEntry, gmem, idbase, id, tblSize, transSize]
  rw [Word64.sub_of_le (by omega) (by omega), Word64.add_of_lt (by omega)]
  omega

end Conversions

/-! ### Entries do not overlap -/

theorem localEntry_inj {c d i j : Nat} {k l : Slot} (hi : i < transSize) (hj : j < transSize) :
    T.localEntry c k + i = T.localEntry d l + j ↔ c = d ∧ k = l ∧ i = j := by
  have hk := k.isLt
  have hl := l.isLt
  simp only [numTrans, tblSize, transSize] at hk hl hi hj
  simp only [localEntry, tblSize, transSize, Fin.ext_iff]
  omega

theorem globalEntry_inj {i j : Nat} {k l : Slot} (hi : i < transSize) (hj : j < transSize) :
    T.globalEntry k + i = T.globalEntry l + j ↔ k = l ∧ i = j := by
  simp only [transSize] at hi hj
  simp only [globalEntry, transSize, Fin.ext_iff]
  omega

theorem localEntry_ne_globalEntry {c i j : Nat} {k l : Slot}
    (hj : j < transSize) : T.localEntry c k + i ≠ T.globalEntry l + j := by
  have hl := l.isLt
  simp only [numTrans, tblSize, transSize] at hl hj
  simp only [localEntry, globalEntry, tblSize, transSize]
  omega

theorem localEntry_ne_globalEntry_word {c j : Nat} {k l : Slot} (hj : j < transSize) :
    T.localEntry c k ≠ T.globalEntry l + j :=
  T.localEntry_ne_globalEntry (i := 0) hj

theorem globalEntry_word_ne_localEntry {c i : Nat} {k l : Slot} (hi : i < transSize) :
    T.globalEntry l + i ≠ T.localEntry c k :=
  (T.localEntry_ne_globalEntry_word hi).symm

theorem globalEntry_ne_localEntry {c : Nat} {k l : Slot} :
    T.globalEntry l ≠ T.localEntry c k :=
  T.globalEntry_word_ne_localEntry (i := 0) (by decide)

/-! ### The maps agree -/

/-- The entry of an id in a core's local table lies wholly inside that table. -/
theorem localEntry_inside {c : Nat} (hc : c < maxPics) (k : Slot) :
    T.lmemr c ≤ T.localEntry c k ∧ T.localEntry c k + transSize ≤ T.lmemr c + tblSize := by
  have bound := k.isLt
  rw [T.lmemr_eq hc]
  simp only [numTrans, tblSize, transSize] at bound
  simp only [localEntry, tblSize, transSize]
  omega

/-- The conversions between ids, global entries and local entries are consistent with one
another, and different cores and ids have different local entries. -/
theorem maps_consistent {p q i j : Nat} (hp : p < maxPics) (hq : q < maxPics) (hi : T.IsId i)
    (hj : T.IsId j) :
    T.lt2id p (T.id2lt p i) = i ∧ T.gt2id (T.id2gt i) = i ∧
    T.lt2gt p (T.id2lt p i) = T.id2gt i ∧ T.gt2lt p (T.id2gt i) = T.id2lt p i ∧
    T.id2rlt p i = T.id2lt p i ∧
    (T.lmemr p ≤ T.id2rlt p i ∧ T.id2rlt p i + transSize ≤ T.lmemr p + tblSize) ∧
    (T.id2rlt p i = T.id2rlt q j → p = q ∧ i = j) := by
  obtain ⟨k, rfl⟩ := hi.exists_slot
  obtain ⟨l, rfl⟩ := hj.exists_slot
  rw [T.id2lt_id hp, T.id2gt_id, T.id2rlt_id hp, T.id2rlt_id hq]
  refine ⟨T.lt2id_localEntry hp k, T.gt2id_globalEntry k, T.lt2gt_localEntry k hp,
    T.gt2lt_globalEntry hp k, rfl, T.localEntry_inside hp k, fun same => ?_⟩
  have apart := T.localEntry_inj (i := 0) (j := 0) (c := p) (d := q) (k := k) (l := l)
    (by decide) (by decide)
  obtain ⟨core, slot, _⟩ := apart.mp same
  exact ⟨core, congrArg T.id slot⟩

/-- The last entry of the last core and the first one of core 0, with `TransMem` at 4096. -/
theorem maps_consistent_sample : ∃ T : TransMem, T.base = 4096 ∧
    T.lt2id 63 (T.id2lt 63 (T.id ⟨numTrans - 1, by decide⟩)) = T.id ⟨numTrans - 1, by decide⟩ :=
  let T : TransMem := ⟨4096, by decide⟩
  ⟨T, rfl, (T.maps_consistent (by decide) (show 0 < maxPics by decide) (T.isId_id _)
    (T.isId_id ⟨0, by decide⟩)).1⟩

/-- The addresses of translation memory. -/
def Contains (p : Nat) : Prop := T.base ≤ p ∧ p < T.base + tblSize * (1 + maxPics)

instance (p : Nat) : Decidable (T.Contains p) := inferInstanceAs (Decidable (_ ∧ _))

theorem contains_localEntry {c i : Nat} {k : Slot} (hc : c < maxPics) (hi : i < transSize) :
    T.Contains (T.localEntry c k + i) := by
  have bound := k.isLt
  simp only [maxPics, numTrans, tblSize, transSize] at *
  simp only [Contains, localEntry, maxPics, tblSize, transSize]
  omega

theorem contains_localEntry_start {c : Nat} {k : Slot} (hc : c < maxPics) :
    T.Contains (T.localEntry c k) :=
  T.contains_localEntry (i := 0) hc (by decide)

theorem contains_globalEntry {i : Nat} {k : Slot} (hi : i < transSize) :
    T.Contains (T.globalEntry k + i) := by
  have bound := k.isLt
  simp only [numTrans, tblSize, transSize] at *
  simp only [Contains, globalEntry, maxPics, tblSize, transSize]
  omega

theorem contains_globalEntry_start {k : Slot} : T.Contains (T.globalEntry k) :=
  T.contains_globalEntry (i := 0) (by decide)

end TransMem

end EBBLib.Trans
