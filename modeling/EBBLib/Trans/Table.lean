import EBBLib.Trans.Address
import EBBLib.Types
import Mathlib.Logic.Function.Basic

/-!
# Translation entries and the miss path

Memory is a map from addresses to 64-bit words. A local entry holds the object in
its first word and the default function table in its second; until a miss installs
an object, the first word points at the second, so that the entry itself plays the
role of an object with the default table. A global entry holds the miss function,
its argument, the free mark, and the bit vector of the cores that cache the object.

A miss function is code outside these files. `Image.chooses` is the representative
that it stores in `*_self`, and an `Answer` is its return code together with the
decision to install the representative.
-/

namespace EBBLib.Trans

/-- Words by address. -/
abbrev Mem := Nat → Nat

/-- `EBB_TRANS_MAX_FUNCS`. -/
def maxFuncs : Nat := 256

/-- What the linked program fixes: the tables, the default function table, the
code of its entries, and the representatives that miss functions choose. -/
structure Image extends TransMem where
  /-- The address of `EBBDefFT`. -/
  defFT : Nat
  /-- The number `n` for the address of `EBBDefFunc_n`. -/
  stub : Nat → Option Nat
  /-- The representative chosen by a miss function, its argument and a local entry. -/
  chooses : Nat → Nat → Nat → Nat

/-- `gt->mf`, which is the first word of the entry. -/
def mfOf (mem : Mem) (gt : Nat) : Nat := mem gt

/-- `gt->arg`. -/
def argOf (mem : Mem) (gt : Nat) : Nat := mem (gt + 8)

/-- `lt->obj`. -/
def objOf (mem : Mem) (lt : Nat) : Nat := mem lt

/-- The word of entry `fnum` of a function table. -/
def funcOf (mem : Mem) (rep fnum : Nat) : Nat := mem (mem rep + 8 * fnum)

/-- `p->w = v` for a word at byte offset `i` of an entry. -/
def setWord (mem : Mem) (p i v : Nat) : Mem := Function.update mem (p + i) v

@[simp] theorem setWord_apply (mem : Mem) (p i v q : Nat) :
    setWord mem p i v q = if q = p + i then v else mem q :=
  Function.update_apply ..

/-- `trans_mark_core_used`. -/
def transMarkCoreUsed (mem : Mem) (gt core : Nat) : Mem :=
  setWord mem gt 24 (mem (gt + 24) ||| 2 ^ core)

/-- The test of `trans_test_core_used`, which combines the vector and the mask with `|`. -/
def coreUsed (corebv core : Nat) : Bool := corebv ||| 2 ^ core ≠ 0

/-- `trans_test_core_used`. -/
def transTestCoreUsed (mem : Mem) (gt core : Nat) : Bool := coreUsed (mem (gt + 24)) core

/-- The test succeeds for every core. -/
@[simp] theorem coreUsed_eq (corebv core : Nat) : coreUsed corebv core = true := by
  have mask : 2 ^ core ≠ 0 := Nat.ne_of_gt (Nat.two_pow_pos core)
  simp only [coreUsed, ne_eq, Nat.or_eq_zero_iff, decide_eq_true_eq]
  exact fun both => mask both.2

variable (I : Image)

/-- `EBBCacheObj` on core `myid`. -/
def ebbCacheObj (myid : Nat) (mem : Mem) (lt obj : Nat) : Mem :=
  let gt := I.lt2gt myid lt
  transMarkCoreUsed (setWord mem lt 0 obj) gt myid

/-- `EBBInitLTrans`. -/
def ebbInitLTrans (mem : Mem) (lt : Nat) : Mem :=
  setWord (setWord mem lt 0 (lt + 8)) lt 8 I.defFT

/-- The size of a core's portion of the global table, `mygmem_size`. -/
def mygmemSize : Nat := tblSize / maxPics

/-- `mygmem`. -/
def mygmem (myid : Nat) : Nat := Word64.add I.gmem (myid * mygmemSize)

/-- `bzero`. -/
def bzero (mem : Mem) (p n : Nat) : Mem := fun q => if p ≤ q ∧ q < p + n then 0 else mem q

/-- The loop of `initLTable` over the first `len` entries. -/
def initLTable (myid : Nat) (mem : Mem) (len : Nat) : Mem :=
  (List.range len).foldl (fun mem i => ebbInitLTrans I mem (I.lmemr myid + transSize * i)) mem

/-- `trans_init` on core `myid`. -/
def transInit (myid : Nat) (mem : Mem) : Mem :=
  initLTable I myid (bzero mem (mygmem I myid) mygmemSize) numTrans

/-- Memory after `trans_init` on the cores below `n`, in order. -/
def startCores : Nat → Mem → Mem
  | 0, mem => mem
  | n + 1, mem => transInit I n (startCores n mem)

/-- `lrt_pic_getnextlpic` with `numlpics` started cores. -/
def getNextLpic (numlpics c : Nat) : Nat := (c + 1) % numlpics

/-- The loop of `TransEBBIdInvalidateCaches`. The fuel bounds the number of
iterations; `none` means that the loop is still running when the fuel is used up. -/
def invalidateFrom (numlpics myid id : Nat) : Nat → Nat → Mem → Option Mem
  | 0, _, _ => none
  | fuel + 1, picId, mem =>
      let mem :=
        if transTestCoreUsed mem (I.id2gt id) picId then
          ebbInitLTrans I mem (I.id2rlt picId id)
        else mem
      let picId := getNextLpic numlpics picId
      if picId = myid then some mem else invalidateFrom numlpics myid id fuel picId mem

/-- `TransEBBIdInvalidateCaches` on core `myid`. -/
def transEBBIdInvalidateCaches (numlpics myid id : Nat) (mem : Mem) : Option Mem :=
  invalidateFrom I numlpics myid id numlpics myid mem

/-- `TransEBBIdBind` on core `myid`. -/
def transEBBIdBind (numlpics myid id mf arg : Nat) (mem : Mem) : Option Mem :=
  let gt := I.id2gt id
  let mem := setWord mem gt 0 mf
  let mem := setWord mem gt 8 arg
  transEBBIdInvalidateCaches I numlpics myid id mem

/-- The return code of a miss function, and whether it calls `EBBCacheObj`. -/
structure Answer where
  rc : EBBRC
  install : Bool
deriving DecidableEq, Repr

/-- `gt->mf(_self, self, fnum, gt->arg)`: the return code, `*_self` and memory. A
miss function that fails has no effect. -/
def missFunc (myid : Nat) (mem : Mem) (mf arg self lt : Nat) (answer : Answer) :
    EBBRC × Nat × Mem :=
  if EBBRC.success answer.rc then
    let rep := I.chooses mf arg lt
    (answer.rc, rep, if answer.install then ebbCacheObj I myid mem lt rep else mem)
  else (answer.rc, self, mem)

/-- The value of `GenericDefaultFunc`: a function to continue with, or a code. -/
inductive Resume where
  | func (address : Nat)
  | code (rc : EBBRC)
deriving DecidableEq, Repr

/-- `GenericDefaultFunc`: its value, `*_self` and memory. -/
def genericDefaultFunc (myid : Nat) (mem : Mem) (self fnum : Nat) (answer : Answer) :
    Resume × Nat × Mem :=
  let lt := Word64.sub self 8
  let gt := I.lt2gt myid lt
  let (ret, self, mem) := missFunc I myid mem (mfOf mem gt) (argOf mem gt) self lt answer
  if EBBRC.success ret then (.func (funcOf mem self fnum), self, mem)
  else (.code ret, self, mem)

/-- What an object call does: run a function on an object, or return a code. -/
inductive Outcome where
  | ran (func self : Nat)
  | returned (rc : EBBRC)
deriving DecidableEq, Repr

/-- `EBBCALL` on core `myid`: load the object, load the entry of its table, and run
it. A default entry leaves the object on the stack, where the miss replaces it. -/
def ebbCall (myid id fnum : Nat) (answer : Answer) (mem : Mem) : Outcome × Mem :=
  let self := objOf mem (I.id2lt myid id)
  let func := funcOf mem self fnum
  match I.stub func with
  | none => (.ran func self, mem)
  | some n =>
      match genericDefaultFunc I myid mem self n answer with
      | (.func func, self, mem) => (.ran func self, mem)
      | (.code rc, _, mem) => (.returned rc, mem)

/-! ### The order of the cores -/

section Order

variable {n myid : Nat}

theorem getNextLpic_mod (n myid j : Nat) :
    getNextLpic n ((myid + j) % n) = (myid + (j + 1)) % n := by
  rw [getNextLpic, Nat.mod_add_mod, Nat.add_assoc]

/-- The cores visited before a whole round differ from the first one. -/
theorem visited_ne (hc : myid < n) {j : Nat} (pos : 0 < j) (hj : j < n) :
    (myid + j) % n ≠ myid := by
  intro same
  by_cases small : myid + j < n
  · rw [Nat.mod_eq_of_lt small] at same
    omega
  · rw [Nat.mod_eq_sub_mod (by omega), Nat.mod_eq_of_lt (by omega)] at same
    omega

theorem visited_round (hc : myid < n) : (myid + n) % n = myid := by
  rw [Nat.add_mod_right, Nat.mod_eq_of_lt hc]

/-- A round visits every core. -/
theorem exists_visit (hc : myid < n) {c : Nat} (h : c < n) : ∃ i < n, (myid + i) % n = c := by
  refine ⟨(c + n - myid) % n, Nat.mod_lt _ (by omega), ?_⟩
  rw [Nat.add_mod_mod, show myid + (c + n - myid) = c + n by omega, Nat.add_mod_right,
    Nat.mod_eq_of_lt h]

end Order

/-! ### Entries -/

/-- A local entry in its default state. -/
def Default (mem : Mem) (lt : Nat) : Prop := mem lt = lt + 8 ∧ mem (lt + 8) = I.defFT

instance (mem : Mem) (lt : Nat) : Decidable (Default I mem lt) :=
  inferInstanceAs (Decidable (_ ∧ _))

variable {I} {mem : Mem} {lt core : Nat} {k : Slot}

theorem ebbInitLTrans_apply (q : Nat) :
    ebbInitLTrans I mem lt q =
      if q = lt + 8 then I.defFT else if q = lt then lt + 8 else mem q := by
  simp only [ebbInitLTrans, setWord_apply, Nat.add_zero]

theorem default_ebbInitLTrans (mem : Mem) : Default I (ebbInitLTrans I mem lt) lt := by
  constructor
  · rw [ebbInitLTrans_apply, if_neg (by omega), if_pos rfl]
  · rw [ebbInitLTrans_apply, if_pos rfl]

/-- `EBBCacheObj` writes the object and the bit vector of the entry's id. -/
theorem ebbCacheObj_apply (hc : core < maxPics) (obj q : Nat) :
    ebbCacheObj I core mem (I.localEntry core k) obj q =
      if q = I.globalEntry k + 24 then mem (I.globalEntry k + 24) ||| 2 ^ core
      else if q = I.localEntry core k then obj else mem q := by
  have apart : I.globalEntry k + 24 ≠ I.localEntry core k :=
    (I.localEntry_ne_globalEntry (i := 0) (by decide)).symm
  simp only [ebbCacheObj, I.lt2gt_localEntry k hc, transMarkCoreUsed, setWord_apply,
    Nat.add_zero, apart, if_false]

/-- The loop of `initLTable` puts each entry in its default state, and writes only
to those entries. -/
theorem initLTable_spec (core : Nat) (mem : Mem) (len : Nat) :
    (∀ i < len, Default I (initLTable I core mem len) (I.lmemr core + transSize * i)) ∧
      ∀ q, q < I.lmemr core ∨ I.lmemr core + transSize * len ≤ q →
        initLTable I core mem len q = mem q := by
  induction len with
  | zero => exact ⟨by simp, fun q _ => rfl⟩
  | succ len ih =>
      obtain ⟨entries, frame⟩ := ih
      have next : initLTable I core mem (len + 1) =
          ebbInitLTrans I (initLTable I core mem len) (I.lmemr core + transSize * len) := by
        simp [initLTable, List.range_succ]
      rw [next]
      simp only [transSize] at *
      constructor
      · intro i hi
        by_cases last : i = len
        · rw [last]
          exact default_ebbInitLTrans _
        · obtain ⟨obj, table⟩ := entries i (by omega)
          constructor
          · rw [ebbInitLTrans_apply, if_neg (by omega), if_neg (by omega), obj]
          · rw [ebbInitLTrans_apply, if_neg (by omega), if_neg (by omega), table]
      · intro q outside
        rw [ebbInitLTrans_apply, if_neg (by omega), if_neg (by omega), frame q (by omega)]

/-- `trans_init` puts the core's own local table in the default state, and writes
only to that table and to the core's portion of the global table. -/
theorem transInit_spec (mem : Mem) (hc : core < maxPics) :
    (∀ k, Default I (transInit I core mem) (I.localEntry core k)) ∧
      ∀ q, ¬ (I.base ≤ q ∧ q < I.base + tblSize) →
        (∀ (k : Slot) (i : Nat), i < transSize → q ≠ I.localEntry core k + i) →
        transInit I core mem q = mem q := by
  obtain ⟨entries, frame⟩ := initLTable_spec (I := I) core
    (bzero mem (mygmem I core) mygmemSize) numTrans
  have start := I.lmemr_eq hc
  constructor
  · intro k
    have entry := entries k k.isLt
    rwa [start] at entry
  · intro q outside other
    rw [transInit, frame, bzero, if_neg]
    · have fits := I.fits
      simp only [maxPics, tblSize] at hc fits outside
      simp only [mygmem, mygmemSize, TransMem.gmem, maxPics, tblSize]
      rw [Word64.add_of_lt (by omega)]
      omega
    · by_contra inside
      have hk : (q - I.lmemr core) / transSize < numTrans := by
        simp only [numTrans, tblSize, transSize] at *
        omega
      refine other ⟨_, hk⟩ ((q - I.lmemr core) % transSize) (Nat.mod_lt _ (by decide)) ?_
      simp only [TransMem.localEntry, transSize] at *
      omega

end EBBLib.Trans
