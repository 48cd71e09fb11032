import EBBLib.Library.Paging
import Mathlib.Logic.Function.Basic

/-!
# The address space of the amd64 kernel

`init32` builds page tables that map the first 4 GB to themselves, with pages of 2 MB, and turns
paging on. `lrt_trans_init` then puts the global and the local translation table at the top of
the address space, with tables of its own that it reaches through the tables of `init32`.
-/

namespace EBBLib.Amd64

open Paging (Mem Present Large Leaf slot frame walk walkFrom each)

/-! ### Entries -/

section

variable (e : BitVec 64)

def setPresent : BitVec 64 := BitField.set 0 1#1 e

def setRw : BitVec 64 := BitField.set 1 1#1 e

def setPs : BitVec 64 := BitField.set 7 1#1 e

/-- The field `base` of `pml4_ent` and `pdpt_ent`. -/
def setBase (base : Nat) : BitVec 64 := BitField.set 12 (BitVec.ofNat 40 base) e

/-- The field `base` of `pd_2m_ent`. -/
def setBase2m (base : Nat) : BitVec 64 := BitField.set 21 (BitVec.ofNat 31 base) e

end

/-- `PML4_INDEX`, `PDPT_INDEX` and `PDIR_INDEX`. -/
def pml4Index (addr : Nat) : Nat := addr / 2 ^ 39 % 512

def pdptIndex (addr : Nat) : Nat := addr / 2 ^ 30 % 512

def pdirIndex (addr : Nat) : Nat := addr / 2 ^ 21 % 512

def GMem : Nat := 0xFFFFFFFF00000000

def LMem : Nat := 0xFFFFFFFE00000000

/-- `LRT_TRANS_TBLSIZE`. -/
def tblSize : Nat := 4096 * 512

/-! ### The program -/

/-- The static page tables, of 512 entries each. -/
inductive Table where
  | initPml4
  | initPdpt
  | initPdir (i : Fin 4)
  | transPdpt
  | transPdir (i : Fin 2)
deriving DecidableEq, Repr

/-- Where the linker has put the page tables and the two translation tables. -/
structure Image where
  table : Table → Nat
  aligned : ∀ t, table t % 4096 = 0
  apart : Function.Injective table
  low : ∀ t, table t < 2 ^ 32
  theGMem : Nat
  BSPLMem : Nat
  gmem_aligned : theGMem % 2 ^ 21 = 0
  lmem_aligned : BSPLMem % 2 ^ 21 = 0
  gmem_low : theGMem < 2 ^ 32
  lmem_low : BSPLMem < 2 ^ 32

variable (I : Image)

def zeroTable (t : Table) : Mem → Mem := each (fun _ _ => 0) (I.table t) 512

/-- Zero paging structures. -/
def zeroTables (mem : Mem) : Mem :=
  (List.finRange 4).foldl (fun mem i => zeroTable I (.initPdir i) mem)
    (zeroTable I .initPdpt (zeroTable I .initPml4 mem))

/-- `init_pml4[0]` and the first four entries of `init_pdpt`. -/
def linkTables (mem : Mem) : Mem :=
  (List.finRange 4).foldl
    (fun mem i => Function.update mem (I.table .initPdpt + 8 * i.val)
      (setBase (setRw (setPresent (mem (I.table .initPdpt + 8 * i.val))))
        (I.table (.initPdir i) / 2 ^ 12)))
    (each (fun _ e => setBase (setRw (setPresent e)) (I.table .initPdpt / 2 ^ 12))
      (I.table .initPml4) 1 mem)

/-- Map first 4GB idempotently using 2m pages. -/
def mapPages (mem : Mem) : Mem :=
  (List.finRange 4).foldl
    (fun mem i => each (fun j e => setBase2m (setPs (setRw (setPresent e))) (i.val * 512 + j))
      (I.table (.initPdir i)) 512 mem) mem

/-- `init32` until it turns paging on, with physical addresses. -/
def init32 (mem : Mem) : Mem := mapPages I (linkTables I (zeroTables I mem))

/-- The memory and `cr3`, with paging on. -/
structure Mmu where
  mem : Mem
  cr3 : Nat

/-- What an address is translated to. -/
def Mmu.translate (s : Mmu) (v : Nat) : Option Nat := walk s.mem s.cr3 v

/-- The assignments to the fields of an entry, through its address. An address that is not
mapped is a page fault. -/
def Mmu.assign (s : Mmu) (v : Nat) (f : BitVec 64 → BitVec 64) : Option Mmu :=
  (s.translate v).map fun p => { s with mem := Function.update s.mem p (f (s.mem p)) }

/-- `init32`. -/
def start (mem : Mem) : Mmu := ⟨init32 I mem, I.table .initPml4⟩

/-- `lrt_trans_init`. -/
def lrt_trans_init (s : Mmu) : Option Mmu := do
  let pml4 := s.cr3
  let s ← s.assign (I.table (.transPdir 0) + 8 * pdirIndex GMem)
    fun e => setBase2m (setPs (setRw (setPresent e))) (I.theGMem / 2 ^ 21)
  let s ← s.assign (I.table (.transPdir 1) + 8 * pdirIndex LMem)
    fun e => setBase2m (setPs (setRw (setPresent e))) (I.BSPLMem / 2 ^ 21)
  let s ← s.assign (I.table .transPdpt + 8 * pdptIndex GMem)
    fun e => setBase (setRw (setPresent e)) (I.table (.transPdir 0) / 2 ^ 12)
  let s ← s.assign (I.table .transPdpt + 8 * pdptIndex LMem)
    fun e => setBase (setRw (setPresent e)) (I.table (.transPdir 1) / 2 ^ 12)
  s.assign (pml4 + 8 * pml4Index GMem)
    fun e => setBase (setRw (setPresent e)) (I.table .transPdpt / 2 ^ 12)

/-! ### The entries that are written -/

/-- An entry for a page of 2 MB. -/
def pageEntry (n : Nat) : BitVec 64 := setBase2m (setPs (setRw (setPresent 0))) n

/-- An entry for a table. -/
def tableEntry (n : Nat) : BitVec 64 := setBase (setRw (setPresent 0)) n

section

variable {n : Nat}

theorem present_pageEntry : Present (pageEntry n) := by
  rw [Present, pageEntry, setBase2m, BitField.get_set_of_apart (by decide) (by decide), setPs,
    BitField.get_set_of_apart (by decide) (by decide), setRw,
    BitField.get_set_of_apart (by decide) (by decide), setPresent, BitField.get_set (by decide)]

theorem large_pageEntry : Large (pageEntry n) := by
  rw [Large, pageEntry, setBase2m, BitField.get_set_of_apart (by decide) (by decide), setPs,
    BitField.get_set (by decide)]

theorem frame_pageEntry (small : n < 2 ^ 31) : frame 21 (pageEntry n) = n * 2 ^ 21 := by
  have base : BitField.get 21 31 (pageEntry n) = BitVec.ofNat 31 n := BitField.get_set (by decide)
  change (BitField.get 21 31 (pageEntry n)).toNat * 2 ^ 21 = n * 2 ^ 21
  rw [base, BitVec.toNat_ofNat, Nat.mod_eq_of_lt small]

theorem present_tableEntry : Present (tableEntry n) := by
  rw [Present, tableEntry, setBase, BitField.get_set_of_apart (by decide) (by decide), setRw,
    BitField.get_set_of_apart (by decide) (by decide), setPresent, BitField.get_set (by decide)]

theorem not_large_tableEntry : ¬ Large (tableEntry n) := by
  rw [Large, tableEntry, setBase, BitField.get_set_of_apart (by decide) (by decide), setRw,
    BitField.get_set_of_apart (by decide) (by decide), setPresent,
    BitField.get_set_of_apart (by decide) (by decide)]
  decide

theorem frame_tableEntry (small : n < 2 ^ 40) : frame 12 (tableEntry n) = n * 2 ^ 12 := by
  have base : BitField.get 12 40 (tableEntry n) = BitVec.ofNat 40 n := BitField.get_set (by decide)
  change (BitField.get 12 40 (tableEntry n)).toNat * 2 ^ 12 = n * 2 ^ 12
  rw [base, BitVec.toNat_ofNat, Nat.mod_eq_of_lt small]

end

/-! ### The tables of `init32` -/

section

variable {I} {mem : Mem} {t u : Table} {i j k : Nat}

/-- The words of the tables are all different. -/
theorem word_inj (hi : i < 512) (hj : j < 512)
    (same : I.table t + 8 * i = I.table u + 8 * j) : t = u ∧ i = j := by
  have := I.aligned t
  have := I.aligned u
  have tables : I.table t = I.table u := by omega
  exact ⟨I.apart tables, by omega⟩

theorem each_other {f : Nat → BitVec 64 → BitVec 64} (apart : u ≠ t) (hi : i < 512) (hk : k ≤ 512) :
    each f (I.table t) k mem (I.table u + 8 * i) = mem (I.table u + 8 * i) :=
  Paging.each_outside fun _ small same =>
    apart (word_inj hi (Nat.lt_of_lt_of_le small hk) same).1

theorem zeroTable_inside (hi : i < 512) : zeroTable I t mem (I.table t + 8 * i) = 0 :=
  Paging.each_inside hi

theorem zeroTable_other (apart : u ≠ t) (hi : i < 512) :
    zeroTable I t mem (I.table u + 8 * i) = mem (I.table u + 8 * i) :=
  each_other apart hi (Nat.le_refl 512)

theorem zeroTables_pdir {d : Fin 4} (hi : i < 512) :
    zeroTables I mem (I.table (.initPdir d) + 8 * i) = 0 :=
  Paging.foldl_inside (h := fun _ => 0) (List.nodup_finRange 4) (List.mem_finRange d)
    (fun _ => zeroTable_inside hi) fun _ _ apart _ =>
      zeroTable_other (fun same => apart (Table.initPdir.inj same).symm) hi

theorem zeroTables_other (apart : ∀ d, u ≠ .initPdir d) (hi : i < 512) :
    zeroTables I mem (I.table u + 8 * i) =
      if u = .initPdpt ∨ u = .initPml4 then 0 else mem (I.table u + 8 * i) := by
  rw [zeroTables, Paging.foldl_outside fun d _ _ => zeroTable_other (apart d) hi]
  by_cases pdpt : u = .initPdpt
  · rw [if_pos (.inl pdpt), pdpt, zeroTable_inside hi]
  rw [zeroTable_other pdpt hi]
  by_cases pml4 : u = .initPml4
  · rw [if_pos (.inr pml4), pml4, zeroTable_inside hi]
  · rw [zeroTable_other pml4 hi, if_neg (not_or.mpr ⟨pdpt, pml4⟩)]

theorem linkTables_pdpt {d : Fin 4} (empty : mem (I.table .initPdpt + 8 * d.val) = 0) :
    linkTables I mem (I.table .initPdpt + 8 * d.val) =
      tableEntry (I.table (.initPdir d) / 2 ^ 12) := by
  have small : d.val < 512 := by omega
  refine (Paging.foldl_inside (h := fun e => setBase (setRw (setPresent e))
    (I.table (.initPdir d) / 2 ^ 12)) (List.nodup_finRange 4) (List.mem_finRange d)
    (fun mem => Function.update_self ..) fun c _ apart mem => ?_).trans ?_
  · exact Function.update_of_ne (fun same => apart (Fin.ext (by omega))) ..
  · rw [each_other (by decide) small (by decide), empty]
    rfl

theorem linkTables_other (apart : u ≠ .initPdpt ∨ 4 ≤ i) (hi : i < 512) :
    linkTables I mem (I.table u + 8 * i) =
      if u = .initPml4 ∧ i = 0 then
        setBase (setRw (setPresent (mem (I.table u + 8 * i)))) (I.table .initPdpt / 2 ^ 12)
      else mem (I.table u + 8 * i) := by
  refine (Paging.foldl_outside fun d _ mem => Function.update_of_ne (fun same => ?_) ..).trans ?_
  · obtain ⟨rfl, rfl⟩ := word_inj hi (by omega) same
    exact apart.elim (fun other => other rfl) fun large => by omega
  · split_ifs with first
    · obtain ⟨rfl, rfl⟩ := first
      exact Paging.each_inside (i := 0) (by decide)
    · refine Paging.each_outside fun j small same => first ?_
      exact (word_inj hi (by omega) same).imp_right fun same => by omega

theorem mapPages_pdir {d : Fin 4} (hi : i < 512) (empty : mem (I.table (.initPdir d) + 8 * i) = 0) :
    mapPages I mem (I.table (.initPdir d) + 8 * i) = pageEntry (d.val * 512 + i) := by
  refine (Paging.foldl_inside (h := fun e => setBase2m (setPs (setRw (setPresent e)))
    (d.val * 512 + i)) (List.nodup_finRange 4) (List.mem_finRange d)
    (fun mem => Paging.each_inside hi) fun c _ apart mem => ?_).trans ?_
  · exact each_other (fun same => apart (Table.initPdir.inj same).symm) hi (Nat.le_refl 512)
  · rw [empty]
    rfl

theorem mapPages_other (apart : ∀ d, u ≠ .initPdir d) (hi : i < 512) :
    mapPages I mem (I.table u + 8 * i) = mem (I.table u + 8 * i) :=
  Paging.foldl_outside fun d _ _ => each_other (apart d) hi (Nat.le_refl 512)

/-- The tables of `init32`, and the entry of `pml4` that it leaves empty. -/
structure LowMapped (I : Image) (mem : Mem) : Prop where
  pml4 : mem (I.table .initPml4 + 8 * 0) = tableEntry (I.table .initPdpt / 2 ^ 12)
  pml4_rest : ∀ i, 0 < i → i < 511 → mem (I.table .initPml4 + 8 * i) = 0
  pdpt : ∀ d : Fin 4,
    mem (I.table .initPdpt + 8 * d.val) = tableEntry (I.table (.initPdir d) / 2 ^ 12)
  pdpt_rest : ∀ i, 4 ≤ i → i < 512 → mem (I.table .initPdpt + 8 * i) = 0
  pdir : ∀ d : Fin 4, ∀ i < 512,
    mem (I.table (.initPdir d) + 8 * i) = pageEntry (d.val * 512 + i)

theorem init32_low : LowMapped I (init32 I mem) := by
  refine ⟨?_, fun i positive small => ?_, fun d => ?_, fun i large small => ?_, fun d i small => ?_⟩
  · rw [init32, mapPages_other (by decide) (by decide),
      linkTables_other (.inl (by decide)) (by decide), if_pos ⟨rfl, rfl⟩,
      zeroTables_other (by decide) (by decide), if_pos (.inr rfl)]
    rfl
  · rw [init32, mapPages_other (by decide) (by omega),
      linkTables_other (.inl (by decide)) (by omega), if_neg (by omega),
      zeroTables_other (by decide) (by omega), if_pos (.inr rfl)]
  · rw [init32, mapPages_other (by decide) (by omega), linkTables_pdpt]
    rw [zeroTables_other (by decide) (by omega), if_pos (.inl rfl)]
  · rw [init32, mapPages_other (by decide) small, linkTables_other (.inr large) small,
      if_neg (by simp), zeroTables_other (by decide) small, if_pos (.inl rfl)]
  · rw [init32, mapPages_pdir small]
    rw [linkTables_other (.inl (by simp)) small, if_neg (by simp), zeroTables_pdir small]

theorem init32_pml4_last : init32 I mem (I.table .initPml4 + 8 * 511) = 0 := by
  rw [init32, mapPages_other (by decide) (by decide),
    linkTables_other (.inl (by decide)) (by decide), if_neg (by decide),
    zeroTables_other (by decide) (by decide), if_pos (.inr rfl)]

/-- The table belongs to `lrt_trans_init`. -/
def Table.Trans : Table → Prop
  | .transPdpt | .transPdir _ => True
  | _ => False

theorem init32_other (trans : u.Trans) (hi : i < 512) :
    init32 I mem (I.table u + 8 * i) = mem (I.table u + 8 * i) := by
  have apart : u ≠ .initPml4 ∧ u ≠ .initPdpt ∧ ∀ d, u ≠ .initPdir d := by
    refine ⟨?_, ?_, fun d => ?_⟩ <;> rintro rfl <;> exact trans
  rw [init32, mapPages_other apart.2.2 hi, linkTables_other (.inl apart.2.1) hi,
    if_neg fun same => apart.1 same.1, zeroTables_other apart.2.2 hi,
    if_neg (not_or.mpr ⟨apart.2.1, apart.1⟩)]

theorem frame_table (t : Table) : frame 12 (tableEntry (I.table t / 2 ^ 12)) = I.table t := by
  have := I.low t
  have := I.aligned t
  rw [frame_tableEntry (by omega)]
  omega

/-- A level whose entry names a table. -/
theorem walk_table {v shift : Nat} {levels : List Nat} (shift_ne : shift ≠ 12)
    (entry : mem (slot (I.table t) shift v) = tableEntry (I.table u / 2 ^ 12)) :
    walkFrom mem v (shift :: levels) (I.table t) = walkFrom mem v levels (I.table u) := by
  have leaf : ¬ Leaf shift (mem (slot (I.table t) shift v)) := by
    rw [entry]
    exact fun leaf => leaf.elim shift_ne fun large => not_large_tableEntry large.2
  rw [Paging.walkFrom_table (entry ▸ present_tableEntry) leaf, entry, frame_table]

theorem walk_absent {v shift : Nat} {levels : List Nat}
    (entry : mem (slot (I.table t) shift v) = 0) :
    walkFrom mem v (shift :: levels) (I.table t) = none :=
  Paging.walkFrom_absent (entry ▸ Paging.not_present_zero)

/-- A page of 2 MB. -/
theorem walk_page {v n : Nat} {levels : List Nat} (small : n < 2 ^ 31)
    (entry : mem (slot (I.table t) 21 v) = pageEntry n) :
    walkFrom mem v (21 :: levels) (I.table t) = some (n * 2 ^ 21 + v % 2 ^ 21) := by
  rw [Paging.walkFrom_page (entry ▸ present_pageEntry)
    (entry ▸ .inr ⟨by decide, large_pageEntry⟩), entry, frame_pageEntry small]

/-- The first 4 GB are mapped to themselves. -/
theorem LowMapped.identity {v : Nat} (h : LowMapped I mem) (low : v < 2 ^ 32) :
    walk mem (I.table .initPml4) v = some v := by
  let d : Fin 4 := ⟨v / 2 ^ 30, by omega⟩
  have pml4 : slot (I.table .initPml4) 39 v = I.table .initPml4 + 8 * 0 := by
    rw [slot]
    omega
  have pdpt : slot (I.table .initPdpt) 30 v = I.table .initPdpt + 8 * d.val := by
    rw [slot, Nat.mod_eq_of_lt (by omega)]
  rw [walk, if_pos (.inl (by omega)), walk_table (by decide) (pml4 ▸ h.pml4),
    walk_table (by decide) (pdpt ▸ h.pdpt d),
    walk_page (by omega) (h.pdir d _ (Nat.mod_lt _ (by decide)))]
  refine congrArg some ?_
  change (v / 2 ^ 30 * 512 + v / 2 ^ 21 % 512) * 2 ^ 21 + v % 2 ^ 21 = v
  omega

/-! ### The tables of `lrt_trans_init` -/

/-- A word that `init32` does not need. -/
def Spare (u : Table) (i : Nat) : Prop := u.Trans ∨ u = .initPml4 ∧ i = 511

theorem LowMapped.update {e : BitVec 64} (h : LowMapped I mem) (spare : Spare u i) (hi : i < 512) :
    LowMapped I (Function.update mem (I.table u + 8 * i) e) := by
  have other : ∀ {t j}, j < 512 → ¬ Spare t j →
      Function.update mem (I.table u + 8 * i) e (I.table t + 8 * j) = mem (I.table t + 8 * j) := by
    intro t j hj needed
    refine Function.update_of_ne (fun same => needed ?_) ..
    obtain ⟨rfl, rfl⟩ := word_inj hj hi same
    exact spare
  refine ⟨?_, fun j positive small => ?_, fun d => ?_, fun j large small => ?_,
    fun d j small => ?_⟩
  · exact (other (by decide) (by simp [Spare, Table.Trans])).trans h.pml4
  · refine (other (by omega) ?_).trans (h.pml4_rest j positive small)
    simp only [Spare, Table.Trans, false_or, true_and]
    omega
  · exact (other (by omega) (by simp [Spare, Table.Trans])).trans (h.pdpt d)
  · exact (other small (by simp [Spare, Table.Trans])).trans (h.pdpt_rest j large small)
  · exact (other small (by simp [Spare, Table.Trans])).trans (h.pdir d j small)

theorem LowMapped.update_trans {e : BitVec 64} (h : LowMapped I mem) (trans : u.Trans)
    (hi : i < 512) : LowMapped I (Function.update mem (I.table u + 8 * i) e) :=
  h.update (.inl trans) hi

/-- An assignment to a table finds its word, which is among the first 4 GB. -/
theorem assign_low {s : Mmu} {f : BitVec 64 → BitVec 64} (h : LowMapped I s.mem)
    (root : s.cr3 = I.table .initPml4) (hi : i < 512) :
    s.assign (I.table u + 8 * i) f = some { s with
      mem := Function.update s.mem (I.table u + 8 * i) (f (s.mem (I.table u + 8 * i))) } := by
  have low : I.table u + 8 * i < 2 ^ 32 := by
    have := I.low u
    have := I.aligned u
    omega
  have found : s.translate (I.table u + 8 * i) = some (I.table u + 8 * i) := by
    rw [Mmu.translate, root, h.identity low]
  rw [Mmu.assign, found]
  rfl

theorem update_other {e : BitVec 64} (hi : i < 512) (hj : j < 512) (apart : t ≠ u ∨ j ≠ i) :
    Function.update mem (I.table u + 8 * i) e (I.table t + 8 * j) = mem (I.table t + 8 * j) := by
  refine Function.update_of_ne (fun same => ?_) ..
  obtain ⟨table, index⟩ := word_inj hj hi same
  exact apart.elim (fun other => other table) fun other => other index

/-- An assignment to an entry that is empty. -/
theorem assign_empty {f : BitVec 64 → BitVec 64} (h : LowMapped I mem) (hi : i < 512)
    (empty : mem (I.table u + 8 * i) = 0) :
    (Mmu.mk mem (I.table .initPml4)).assign (I.table u + 8 * i) f =
      some ⟨Function.update mem (I.table u + 8 * i) (f 0), I.table .initPml4⟩ := by
  rw [← empty]
  exact assign_low h rfl hi

/-- The tables after `lrt_trans_init`. -/
structure Mapped (I : Image) (mem : Mem) : Prop where
  low : LowMapped I mem
  last : mem (I.table .initPml4 + 8 * 511) = tableEntry (I.table .transPdpt / 2 ^ 12)
  gpdpt : mem (I.table .transPdpt + 8 * 508) = tableEntry (I.table (.transPdir 0) / 2 ^ 12)
  lpdpt : mem (I.table .transPdpt + 8 * 504) = tableEntry (I.table (.transPdir 1) / 2 ^ 12)
  pdpt_rest : ∀ i < 512, i ≠ 508 → i ≠ 504 → mem (I.table .transPdpt + 8 * i) = 0
  gpage : mem (I.table (.transPdir 0) + 8 * 0) = pageEntry (I.theGMem / 2 ^ 21)
  lpage : mem (I.table (.transPdir 1) + 8 * 0) = pageEntry (I.BSPLMem / 2 ^ 21)
  pdir_rest : ∀ d, ∀ i < 512, 0 < i → mem (I.table (.transPdir d) + 8 * i) = 0

/-- The two entries for the translation tables. -/
def pages (I : Image) (mem : Mem) : Mem :=
  Function.update
    (Function.update mem (I.table (.transPdir 0) + 8 * 0) (pageEntry (I.theGMem / 2 ^ 21)))
    (I.table (.transPdir 1) + 8 * 0) (pageEntry (I.BSPLMem / 2 ^ 21))

/-- The entries that lead to them. -/
def links (I : Image) (mem : Mem) : Mem :=
  Function.update
    (Function.update
      (Function.update mem (I.table .transPdpt + 8 * 508)
        (tableEntry (I.table (.transPdir 0) / 2 ^ 12)))
      (I.table .transPdpt + 8 * 504) (tableEntry (I.table (.transPdir 1) / 2 ^ 12)))
    (I.table .initPml4 + 8 * 511) (tableEntry (I.table .transPdpt / 2 ^ 12))

theorem LowMapped.pages (h : LowMapped I mem) : LowMapped I (pages I mem) := by
  refine LowMapped.update_trans ?_ (u := .transPdir 1) (i := 0) trivial (by decide)
  exact h.update_trans (u := .transPdir 0) (i := 0) trivial (by decide)

theorem pages_other (hj : j < 512) (apart : (∀ d, t ≠ .transPdir d) ∨ 0 < j) :
    pages I mem (I.table t + 8 * j) = mem (I.table t + 8 * j) := by
  have other : ∀ d, t ≠ .transPdir d ∨ j ≠ 0 := fun d =>
    apart.imp (fun other => other d) Nat.pos_iff_ne_zero.mp
  rw [pages, update_other (by decide) hj (other 1), update_other (by decide) hj (other 0)]

theorem links_other (hj : j < 512) (apart : ∃ d, t = .transPdir d) :
    links I mem (I.table t + 8 * j) = mem (I.table t + 8 * j) := by
  obtain ⟨d, rfl⟩ := apart
  rw [links, update_other (by decide) hj (.inl (by simp)),
    update_other (by decide) hj (.inl (by simp)), update_other (by decide) hj (.inl (by simp))]

theorem mapped_links (low : LowMapped I mem)
    (bss : ∀ u : Table, u.Trans → ∀ i < 512, mem (I.table u + 8 * i) = 0) :
    Mapped I (links I (pages I mem)) := by
  refine ⟨?_, Function.update_self .., ?_, ?_, fun i hi apart apart' => ?_, ?_, ?_,
    fun d i hi positive => ?_⟩
  · refine LowMapped.update ?_ (u := .initPml4) (i := 511) (.inr ⟨rfl, rfl⟩) (by decide)
    refine LowMapped.update_trans ?_ (u := .transPdpt) (i := 504) trivial (by decide)
    exact low.pages.update_trans (u := .transPdpt) (i := 508) trivial (by decide)
  · rw [links, update_other (by decide) (by decide) (.inl (by decide)),
      update_other (by decide) (by decide) (.inr (by decide)), Function.update_self]
  · rw [links, update_other (by decide) (by decide) (.inl (by decide)), Function.update_self]
  · rw [links, update_other (by decide) hi (.inl (by decide)),
      update_other (by decide) hi (.inr apart'), update_other (by decide) hi (.inr apart),
      pages_other hi (.inl (by simp)), bss .transPdpt trivial i hi]
  · rw [links_other (by decide) ⟨0, rfl⟩, pages,
      update_other (by decide) (by decide) (.inl (by decide)), Function.update_self]
  · rw [links_other (by decide) ⟨1, rfl⟩, pages, Function.update_self]
  · rw [links_other hi ⟨d, rfl⟩, pages_other hi (.inr positive), bss (.transPdir d) trivial i hi]

/-- `lrt_trans_init` finds all its tables, and fills them in. -/
theorem trans_init_run (low : LowMapped I mem) (last : mem (I.table .initPml4 + 8 * 511) = 0)
    (bss : ∀ u : Table, u.Trans → ∀ i < 512, mem (I.table u + 8 * i) = 0) :
    lrt_trans_init I ⟨mem, I.table .initPml4⟩ =
      some ⟨links I (pages I mem), I.table .initPml4⟩ := by
  have low1 := low.update_trans (u := .transPdir 0) (i := 0)
    (e := pageEntry (I.theGMem / 2 ^ 21)) trivial (by decide)
  have low3 := low.pages.update_trans (u := .transPdpt) (i := 508)
    (e := tableEntry (I.table (.transPdir 0) / 2 ^ 12)) trivial (by decide)
  have low4 := low3.update_trans (u := .transPdpt) (i := 504)
    (e := tableEntry (I.table (.transPdir 1) / 2 ^ 12)) trivial (by decide)
  have new : ∀ {i}, i < 512 → pages I mem (I.table .transPdpt + 8 * i) = 0 := fun hi =>
    (pages_other hi (.inl (by simp))).trans (bss .transPdpt trivial _ hi)
  have new' : pages I mem (I.table .initPml4 + 8 * 511) = 0 :=
    (pages_other (by decide) (.inl (by simp))).trans last
  refine Option.bind_eq_some_iff.mpr
    ⟨_, assign_empty low (by decide) (bss (.transPdir 0) trivial 0 (by decide)), ?_⟩
  refine Option.bind_eq_some_iff.mpr ⟨_, assign_empty low1 (by decide) ?_, ?_⟩
  · rw [update_other (by decide) (by decide) (.inl (by decide))]
    exact bss (.transPdir 1) trivial 0 (by decide)
  refine Option.bind_eq_some_iff.mpr ⟨_, assign_empty low.pages (by decide) (new (by decide)), ?_⟩
  refine Option.bind_eq_some_iff.mpr ⟨_, assign_empty low3 (by decide) ?_, ?_⟩
  · rw [update_other (by decide) (by decide) (.inr (by decide))]
    exact new (by decide)
  refine assign_empty low4 (by decide) ?_
  rw [update_other (by decide) (by decide) (.inl (by decide)),
    update_other (by decide) (by decide) (.inl (by decide))]
  exact new'

/-! ### The address space -/

theorem walk_first {v : Nat} (h : LowMapped I mem) (high : 2 ^ 32 ≤ v) (lower : v < 2 ^ 39) :
    walk mem (I.table .initPml4) v = none := by
  have pml4 : slot (I.table .initPml4) 39 v = I.table .initPml4 + 8 * 0 := by
    rw [slot]
    omega
  have pdpt : mem (slot (I.table .initPdpt) 30 v) = 0 := h.pdpt_rest _ (by omega) (by omega)
  rw [walk, if_pos (.inl (by omega)), walk_table (by decide) (pml4 ▸ h.pml4), walk_absent pdpt]

/-- The entries of `pml4` between the first and the last. -/
theorem walk_between {v : Nat} (h : LowMapped I mem) (high : 2 ^ 39 ≤ v)
    (lower : v < 2 ^ 64 - 2 ^ 39) : walk mem (I.table .initPml4) v = none := by
  by_cases canonical : Paging.Canonical v
  · have pml4 : mem (slot (I.table .initPml4) 39 v) = 0 :=
      h.pml4_rest _ (by rcases canonical with low | high <;> omega)
        (by rcases canonical with low | high <;> omega)
    rw [walk, if_pos canonical, walk_absent pml4]
  · exact if_neg canonical

/-- The last entry of `pml4`. -/
theorem Mapped.walk_last {v : Nat} (h : Mapped I mem) (high : 2 ^ 64 - 2 ^ 39 ≤ v)
    (small : v < 2 ^ 64) :
    walk mem (I.table .initPml4) v = walkFrom mem v [30, 21, 12] (I.table .transPdpt) := by
  have pml4 : slot (I.table .initPml4) 39 v = I.table .initPml4 + 8 * 511 := by
    rw [slot]
    omega
  rw [walk, if_pos (.inr ⟨by omega, small⟩), walk_table (by decide) (pml4 ▸ h.last)]

/-- A table of translations, at the start of its entry of `transPdpt`. -/
theorem Mapped.walk_pdir {v n k : Nat} {d : Fin 2} (h : Mapped I mem) (pdpt : v / 2 ^ 30 % 512 = k)
    (entry : mem (I.table .transPdpt + 8 * k) = tableEntry (I.table (.transPdir d) / 2 ^ 12))
    (page : mem (I.table (.transPdir d) + 8 * 0) = pageEntry n) (fits : n < 2 ^ 31) :
    walkFrom mem v [30, 21, 12] (I.table .transPdpt) =
      if v / 2 ^ 21 % 512 = 0 then some (n * 2 ^ 21 + v % 2 ^ 21) else none := by
  rw [walk_table (by decide) (by rw [slot, pdpt, entry])]
  split_ifs with first
  · exact walk_page fits (by rw [slot, first, page])
  · exact walk_absent (h.pdir_rest d _ (Nat.mod_lt _ (by decide)) (Nat.pos_of_ne_zero first))

theorem Mapped.translate {v : Nat} (h : Mapped I mem) (small : v < 2 ^ 64) :
    walk mem (I.table .initPml4) v =
      if v < 2 ^ 32 then some v
      else if GMem ≤ v ∧ v < GMem + tblSize then some (I.theGMem + (v - GMem))
      else if LMem ≤ v ∧ v < LMem + tblSize then some (I.BSPLMem + (v - LMem))
      else none := by
  have := I.gmem_aligned
  have := I.gmem_low
  have := I.lmem_aligned
  have := I.lmem_low
  have : GMem = 0xFFFFFFFF00000000 := rfl
  have : LMem = 0xFFFFFFFE00000000 := rfl
  have : tblSize = 2 ^ 21 := rfl
  by_cases low : v < 2 ^ 32
  · rw [if_pos low, h.low.identity low]
  by_cases first : v < 2 ^ 39
  · rw [walk_first h.low (by omega) first, if_neg low, if_neg (by omega), if_neg (by omega)]
  by_cases last : v < 2 ^ 64 - 2 ^ 39
  · rw [walk_between h.low (by omega) last, if_neg low, if_neg (by omega), if_neg (by omega)]
  rw [h.walk_last (by omega) small, if_neg low]
  by_cases global : v / 2 ^ 30 % 512 = 508
  · rw [h.walk_pdir global h.gpdpt h.gpage (by omega)]
    split_ifs <;> grind
  by_cases loc : v / 2 ^ 30 % 512 = 504
  · rw [h.walk_pdir loc h.lpdpt h.lpage (by omega)]
    split_ifs <;> grind
  · rw [walk_absent (h.pdpt_rest _ (Nat.mod_lt _ (by decide)) global loc), if_neg (by omega),
      if_neg (by omega)]

end

/-- After `init32` and `lrt_trans_init`, the first 4 GB are mapped to themselves, the global and
the local translation table are at `GMem` and `LMem` with all their bytes, and there is nothing
else in the address space. -/
theorem lrt_trans_init_translates (I : Image) (mem : Mem)
    (bss : ∀ u : Table, u.Trans → ∀ i < 512, mem (I.table u + 8 * i) = 0) :
    ∃ s, lrt_trans_init I (start I mem) = some s ∧ ∀ v < 2 ^ 64, s.translate v =
      if v < 2 ^ 32 then some v
      else if GMem ≤ v ∧ v < GMem + tblSize then some (I.theGMem + (v - GMem))
      else if LMem ≤ v ∧ v < LMem + tblSize then some (I.BSPLMem + (v - LMem))
      else none := by
  have empty : ∀ u : Table, u.Trans → ∀ i < 512, init32 I mem (I.table u + 8 * i) = 0 :=
    fun u trans i hi => (init32_other trans hi).trans (bss u trans i hi)
  exact ⟨_, trans_init_run init32_low init32_pml4_last empty, fun v small =>
    (mapped_links init32_low empty).translate small⟩

/-- The page tables from 4 KB on, and the translation tables after them. -/
def sampleImage : Image where
  table
    | .initPml4 => 0x1000
    | .initPdpt => 0x2000
    | .initPdir i => 0x3000 + 0x1000 * i
    | .transPdpt => 0x7000
    | .transPdir i => 0x8000 + 0x1000 * i
  aligned t := by cases t <;> simp only <;> omega
  apart t u same := by
    cases t <;> cases u <;> simp only [reduceCtorEq, Table.initPdir.injEq, Table.transPdir.injEq]
      at same ⊢ <;> omega
  low t := by cases t <;> simp only <;> omega
  theGMem := 0x200000
  BSPLMem := 0x400000
  gmem_aligned := by decide
  lmem_aligned := by decide
  gmem_low := by decide
  lmem_low := by decide

theorem sample_translates :
    ∃ s, lrt_trans_init sampleImage (start sampleImage fun _ => 0) = some s ∧
      ∀ v < 2 ^ 64, s.translate v =
        if v < 2 ^ 32 then some v
        else if GMem ≤ v ∧ v < GMem + tblSize then some (0x200000 + (v - GMem))
        else if LMem ≤ v ∧ v < LMem + tblSize then some (0x400000 + (v - LMem))
        else none :=
  lrt_trans_init_translates sampleImage (fun _ => 0) fun _ _ _ _ => rfl

end EBBLib.Amd64
