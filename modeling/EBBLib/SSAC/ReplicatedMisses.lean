import EBBLib.SSAC.ReplicatedDirectory
import Mathlib.Data.Finset.Prod

/-!
# Misses of the replicated cache

A miss takes a local entry out of the directory and makes it a copy of another object. The
directory always has room for a new object: it lists nothing that has no copy, and there are
as many entries in a line as there are in all queues with its index.
-/

namespace EBBLib.SSACSimpleReplicatedArray

open SSACSimpleSharedArray (CacheObjectIdSimple CacheEntrySimple GetType PutFlag Store entryAt)
open SSACSimpleSharedArray.CacheObjectIdSimple
open SSACSimpleSharedArray.HashQueues (search lruentry)

section

variable {c c' : SSAC} {store : Store} {vp vp' i j k : Nat} {e : CacheEntrySimple} {d : DirEntry}
  {id : CacheObjectIdSimple}

theorem getLsbD_addvp (small : vp < 64) :
    (d.addvp vp).vpmask.getLsbD vp' = (d.vpmask.getLsbD vp' || decide (vp' = vp)) := by
  rw [DirEntry.addvp, BitVec.getLsbD_or, Bits.getLsbD_one_shiftLeft small]

theorem getLsbD_removevp (small : vp < 64) :
    (d.removevp vp).vpmask.getLsbD vp' = (d.vpmask.getLsbD vp' && !decide (vp' = vp)) := by
  rw [DirEntry.removevp, BitVec.getLsbD_and, BitVec.getLsbD_not,
    Bits.getLsbD_one_shiftLeft small]
  by_cases bit : d.vpmask.getLsbD vp'
  · have := BitVec.lt_of_getLsbD bit
    simp [this]
  · simp [bit]

/-- A mask that is not 0 has a bit. -/
theorem exists_bit {mask : BitVec 64} (nonzero : mask ≠ 0#64) : ∃ vp, mask.getLsbD vp = true := by
  by_contra none
  refine nonzero (BitVec.eq_of_getLsbD_eq fun i _ => ?_)
  rw [BitVec.getLsbD_zero, Bool.eq_false_iff]
  exact fun bit => none ⟨i, bit⟩

/-- An entry of a line stands for an entry of a queue with the same index. -/
theorem exists_slot (h : c.Exact) (here : (c.line i)[k]? = some d) (isValid : Valid d.id) :
    ∃ vp j, vp < c.numproc ∧ j < c.associativity ∧ (c.slot vp i j).id = d.id := by
  have home := h.placedLine i d (List.mem_of_getElem? here) isValid
  subst home
  have listed : c.listed d.id = some d := (h.distinctLine _).lookup_eq isValid here rfl
  obtain ⟨vp, bit⟩ := exists_bit (h.shared d.id d isValid listed)
  rw [h.bit isValid listed, ← copy_isSome] at bit
  obtain ⟨e, copy⟩ := Option.isSome_iff_exists.mp bit
  obtain ⟨inside, j, found, there⟩ := search_of_copy copy
  refine ⟨vp, j, inside, ?_, (search_eq_some found).2⟩
  rw [← h.length vp (c.home d.id)]
  exact (List.getElem?_eq_some_iff.mp there).1

/-- The directory is never full when a queue has a free entry. -/
theorem exists_free (h : c.Exact) (inside : vp < c.numproc) (bound : j < c.associativity)
    (free : ¬ Valid (c.slot vp i j).id) :
    ∃ k, (c.line i).findIdx? (fun d => !valid d.id) = some k := by
  by_contra full
  have all : ∀ k < c.associativity * c.numproc, ∃ d, (c.line i)[k]? = some d ∧ Valid d.id := by
    intro k small
    rw [← h.lengthLine i] at small
    have none : (c.line i).findIdx? (fun d => !valid d.id) = none :=
      Option.eq_none_iff_forall_ne_some.mpr fun k found => full ⟨k, found⟩
    refine ⟨(c.line i)[k], List.getElem?_eq_getElem small, ?_⟩
    simpa [Valid] using List.findIdx?_eq_none_iff.mp none _ (List.getElem_mem small)
  -- Every position of the line has an entry in a queue, other than the free one.
  have slots : ∀ k, ∃ p : Nat × Nat, k < c.associativity * c.numproc →
      p ∈ (Finset.range c.numproc ×ˢ Finset.range c.associativity).erase (vp, j) ∧
        ∃ d, (c.line i)[k]? = some d ∧ Valid d.id ∧ (c.slot p.1 i p.2).id = d.id := by
    intro k
    by_cases small : k < c.associativity * c.numproc
    · obtain ⟨d, here, isValid⟩ := all k small
      obtain ⟨vp', j', inside', bound', same⟩ := exists_slot h here isValid
      refine ⟨(vp', j'), fun _ => ⟨?_, d, here, isValid, same⟩⟩
      rw [Finset.mem_erase, Finset.mem_product, Finset.mem_range, Finset.mem_range]
      refine ⟨fun clash => free ?_, inside', bound'⟩
      cases clash
      exact same ▸ isValid
    · exact ⟨(0, 0), fun small' => absurd small' small⟩
  choose f hf using slots
  have card := Finset.card_le_card_of_injOn (s := Finset.range (c.associativity * c.numproc)) f
    (fun k member => (hf k (Finset.mem_range.mp member)).1) ?_
  · rw [Finset.card_erase_of_mem (by simp [inside, bound]), Finset.card_product, Finset.card_range,
      Finset.card_range, Finset.card_range, Nat.mul_comm c.numproc] at card
    have := Nat.mul_pos (Nat.zero_lt_of_lt bound) h.positive
    omega
  · intro k first l second clash
    obtain ⟨_, d, here, isValid, same⟩ := hf k (Finset.mem_range.mp first)
    obtain ⟨_, d', here', _, same'⟩ := hf l (Finset.mem_range.mp second)
    have clash : f k = f l := clash
    rw [← clash] at same'
    exact h.distinctLine i k l d d' here here' isValid (same.symm.trans same')

/-! ### Evictions -/

theorem not_valid_invalid : ¬ Valid invalid := by
  rw [Valid]
  decide

theorem invalid_ne (isValid : Valid id) : invalid ≠ id := fun same =>
  not_valid_invalid (by rwa [same])

/-- An entry that stands for no object. -/
def freed (e : CacheEntrySimple) : CacheEntrySimple := { e with id := invalid }

/-- What the directory has for an object after processor `vp` dropped its copy. -/
def dropped (d : DirEntry) (vp : Nat) (dirty : Bool) : DirEntry :=
  { d with modified := d.modified || dirty }.removevp vp

/-- What becomes of the entry in the directory. -/
def remaining (d : DirEntry) (vp : Nat) (dirty : Bool) : DirEntry :=
  if (dropped d vp dirty).vpmask = 0#64 then .new else dropped d vp dirty

/-- The cache without one copy. -/
def evicted (c : SSAC) (vp i j k : Nat) (e : CacheEntrySimple) (d : DirEntry) : SSAC :=
  (c.setDir i k (remaining d vp e.dirty)).setEntry vp i j (freed e)

section

variable (h : c.Exact) (inside : vp < c.numproc) (isValid : Valid e.id)
  (here : (c.queue vp (c.home e.id)).entries[j]? = some e)
  (atLine : (c.line (c.home e.id))[k]? = some d) (idLine : d.id = e.id)

include isValid idLine

theorem remaining_fits : FitsLine c (c.home e.id) d (remaining d vp e.dirty) := by
  rw [remaining]
  split_ifs
  · exact ⟨fun v => absurd v not_valid_invalid, fun _ => rfl⟩
  · exact ⟨fun _ => .inl rfl, fun free => absurd (by rw [← idLine] at isValid; exact isValid) free⟩

include h here atLine

theorem evicted_tables : (evicted c vp (c.home e.id) j k e d).Tables :=
  (h.setDir atLine (remaining_fits isValid idLine)).setQueue (by rw [queue_setDir]; exact here)
    fun v => absurd v not_valid_invalid

include inside

theorem evicted_view (valid' : Valid id) : (evicted c vp (c.home e.id) j k e d).view vp' id =
    if vp' = vp ∧ e.id = id then none else c.view vp' id := by
  refine ((h.setDir atLine (remaining_fits isValid idLine)).view_setQueue
    (by rw [queue_setDir]; exact here) (fun v => absurd v not_valid_invalid) inside valid').trans ?_
  rw [if_neg fun both => invalid_ne valid' both.2, view_setDir]

omit inside here

theorem evicted_listed (valid' : Valid id) : (evicted c vp (c.home e.id) j k e d).listed id =
    if e.id = id then
      if (dropped d vp e.dirty).vpmask = 0#64 then none else some (dropped d vp e.dirty)
    else c.listed id := by
  refine listed_setQueue.trans
    ((h.listed_setDir atLine (remaining_fits isValid idLine) valid').trans ?_)
  have sameId : (dropped d vp e.dirty).id = e.id := idLine
  rw [remaining, idLine]
  by_cases empty : (dropped d vp e.dirty).vpmask = 0#64
  · rw [if_pos empty, if_neg (show DirEntry.new.id ≠ id from invalid_ne valid'), if_pos empty]
  · rw [if_neg empty, sameId, if_neg empty]
    split_ifs <;> rfl

/-- The processors that still have a copy. -/
theorem bit_dropped (small : vp < 64) : (dropped d vp e.dirty).vpmask.getLsbD vp' =
    ((c.view vp' e.id).isSome && !decide (vp' = vp)) := by
  have listed : c.listed e.id = some d :=
    (h.distinctLine _).lookup_eq isValid atLine idLine
  rw [dropped, getLsbD_removevp small]
  exact congrArg (· && _) (h.bit (d := d) isValid listed)

include inside here

theorem evicted_exact : (evicted c vp (c.home e.id) j k e d).Exact where
  toTables := evicted_tables h isValid here atLine idLine
  small := h.small
  mask_eq id valid' vp' := by
    have small : vp < 64 := by have := h.small; omega
    have bit : (dropped d vp e.dirty).vpmask.getLsbD vp' = _ :=
      bit_dropped h isValid atLine idLine small
    rw [SSAC.mask, evicted_listed h isValid atLine idLine valid',
      evicted_view h inside isValid here atLine idLine valid']
    by_cases same : e.id = id
    · subst same
      rw [if_pos rfl]
      split_ifs with empty at_ at_
      · simp
      · have apart : vp' ≠ vp := fun clash => at_ ⟨clash, rfl⟩
        rw [empty] at bit
        simpa [apart] using bit
      · simpa [at_.1] using bit
      · have apart : vp' ≠ vp := fun clash => at_ ⟨clash, rfl⟩
        simpa [apart] using bit
    · rw [if_neg same, if_neg fun both => same both.2, ← SSAC.mask, h.mask_eq id valid' vp']
  shared id b valid' there := by
    rw [evicted_listed h isValid atLine idLine valid'] at there
    split_ifs at there with same empty
    · rw [Option.some.injEq] at there
      exact there ▸ empty
    · exact h.shared id b valid' there

end

/-- The eviction of a copy, as the other objects and processors see it. -/
structure Evicts (c : SSAC) (store : Store) (vp i j : Nat) (e : CacheEntrySimple) (c' : SSAC)
    (store' : Store) : Prop where
  exact : c'.Exact
  keeps : SSAC.Keeps c c' (· ≠ e.id)
  points : SSAC.Points c c' fun vp' i' j' => vp' = vp ∧ i' = i ∧ j' = j
  freed : (c'.queue vp i).entries[j]? = some (freed e)
  view : ∀ vp', c'.view vp' e.id = if vp' = vp then none else c.view vp' e.id
  counts : SSAC.Counts c c'
  lookup : ∀ id, id ≠ e.id → Valid id → lookupid id (c'.line i) = lookupid id (c.line i)
  /-- The object stays in the directory as long as there is another copy. -/
  outcome :
    (∃ vp' d, vp' ≠ vp ∧ (c.view vp' e.id).isSome ∧ c.listed e.id = some d ∧
      c'.listed e.id = some (dropped d vp e.dirty) ∧ store' = store) ∨
    ((∀ vp', vp' ≠ vp → c.view vp' e.id = none) ∧ c'.listed e.id = none ∧
      ∃ d, c.listed e.id = some d ∧
        store' = if d.modified || e.dirty then Function.update store e.id e.data else store)

/-- `removefromdir` for a listed object. -/
theorem removefromdir_eq (found : lookupid id (c.line (c.home id)) = some k)
    (direntry : c.direntry (c.home id) k = d) (dirty : Bool) :
    removefromdir c id vp dirty =
      some (decide ((dropped d vp dirty).vpmask = 0#64) && (d.modified || dirty),
        c.setDir (c.home id) k (remaining d vp dirty)) := by
  rw [removefromdir, found, Option.map_some, direntry, remaining]
  by_cases empty : (dropped d vp dirty).vpmask = 0#64
  · have gone : ({ dropped d vp dirty with id := invalid } : DirEntry).clearall = .new := by
      rw [DirEntry.clearall, DirEntry.new, ← empty]
    rw [if_pos empty, ← gone]
    simp only [dropped] at empty
    simp only [dropped, empty, if_true, decide_true, Bool.true_and]
    rfl
  · rw [if_neg empty]
    simp only [dropped] at empty
    simp only [dropped, empty, if_false, decide_false, Bool.false_and]

theorem lookupid_set {l : List DirEntry} {b : DirEntry} (here : l[k]? = some b) (old : b.id ≠ id)
    (new : d.id ≠ id) : lookupid id (l.set k d) = lookupid id l := by
  induction l generalizing k with
  | nil => rfl
  | cons a l ih =>
      simp only [lookupid] at *
      cases k with
      | zero =>
          obtain rfl : a = b := by simpa using here
          simp [List.findIdx?_cons, old.symm, new.symm]
      | succ k =>
          rw [List.set_cons_succ, List.findIdx?_cons, List.findIdx?_cons, ih (by simpa using here)]

/-- Taking an entry out of the directory and clearing its id evicts the copy. -/
theorem clean_spec (store : Store) (h : c.Exact) (inside : vp < c.numproc)
    (here : (c.queue vp i).entries[j]? = some e) (isValid : Valid e.id) :
    ∃ m store', clean c store vp i j = some (m, store') ∧
      (m.queue vp i).entries[j]? = some e ∧
      Evicts c store vp i j e (m.setEntry vp i j (freed e)) store' := by
  obtain rfl := h.placed vp i e (List.mem_of_getElem? here) isValid
  obtain ⟨d, listed⟩ := h.listed_of_view isValid (h.view_at inside here isValid)
  obtain ⟨k, found, direntry⟩ := lookupid_of_listed h.toTables isValid listed
  obtain ⟨atLine, idLine⟩ := lookupid_eq_some found
  rw [direntry] at atLine idLine
  have small : vp < 64 := by have := h.small; omega
  have bit : ∀ vp', (dropped d vp e.dirty).vpmask.getLsbD vp' = _ := fun vp' =>
    bit_dropped h isValid atLine idLine small
  have here' : ((c.setDir (c.home e.id) k (remaining d vp e.dirty)).queue vp
      (c.home e.id)).entries[j]? = some e := by
    rw [queue_setDir]
    exact here
  refine ⟨_, if decide ((dropped d vp e.dirty).vpmask = 0#64) && (d.modified || e.dirty) then
    Function.update store e.id e.data else store, ?_, here',
    evicted_exact h inside isValid here atLine idLine,
    ⟨rfl, rfl, rfl, fun id valid' apart vp' => ?_, fun id valid' apart => ?_⟩,
    fun vp' i' j' apart => ?_, ?_, fun vp' => ?_, fun vp' i' => ?_, fun id apart valid' => ?_, ?_⟩
  · rw [clean, slot_eq here, if_pos (show valid e.id = true from isValid),
      removefromdir_eq found direntry, Option.map_some]
  · rw [← evicted, evicted_view h inside isValid here atLine idLine valid',
      if_neg fun both => apart both.2.symm]
  · rw [← evicted, evicted_listed h isValid atLine idLine valid', if_neg (Ne.symm apart)]
  · rw [SSAC.setEntry, slot_setQueue here', if_neg apart, slot_setDir]
  · rw [SSAC.setEntry, queue_setQueue, if_pos ⟨rfl, rfl⟩]
    exact List.getElem?_set_self (List.getElem?_eq_some_iff.mp here').1
  · rw [← evicted, evicted_view h inside isValid here atLine idLine isValid]
    simp
  · rw [counts_setEntry, queue_setDir]
  · have new : (remaining d vp e.dirty).id ≠ id := by
      rw [remaining]
      split_ifs
      · exact invalid_ne valid'
      · exact fun same => apart (same.symm.trans idLine)
    refine (congrArg (lookupid id) (line_setQueue.trans line_setDir)).trans ?_
    rw [if_pos rfl, lookupid_set atLine (fun same => apart (same.symm.trans idLine)) new]
  · rw [← evicted, evicted_listed h isValid atLine idLine isValid, if_pos rfl]
    by_cases empty : (dropped d vp e.dirty).vpmask = 0#64
    · refine .inr ⟨fun vp' apart => ?_, if_pos empty, d, listed, by simp [empty]⟩
      have bit := bit vp'
      rw [empty] at bit
      simpa [apart] using bit
    · obtain ⟨vp', is_set⟩ := exists_bit empty
      rw [bit vp'] at is_set
      simp only [Bool.and_eq_true, Bool.not_eq_true', decide_eq_false_iff_not] at is_set
      exact .inl ⟨vp', d, is_set.2, is_set.1, listed, if_neg empty, by simp [empty]⟩

/-! ### New copies -/

theorem lookup_eq_none (inside : vp < c.numproc) (missing : c.view vp id = none) :
    Keyed.lookup CacheEntrySimple.id id (c.queue vp (c.home id)).entries = none := by
  rwa [SSAC.view, Option.map_eq_none_iff, SSAC.copy, if_pos inside] at missing

theorem lookupid_at (h : c.Tables) (isValid : Valid id) (here : (c.line (c.home id))[k]? = some d)
    (same : d.id = id) : lookupid id (c.line (c.home id)) = some k := by
  obtain ⟨l, found, _⟩ :=
    lookupid_of_listed h isValid ((h.distinctLine _).lookup_eq isValid here same)
  obtain ⟨there, same'⟩ := lookupid_eq_some found
  rw [found, h.distinctLine _ k l _ _ here there (by rwa [same]) (same.trans same'.symm)]

/-- A free entry becomes the copy of an object, and the directory gets the processor. -/
structure Gains (c : SSAC) (vp j : Nat) (id : CacheObjectIdSimple) (e : CacheEntrySimple)
    (d : DirEntry) (c' : SSAC) : Prop where
  exact : c'.Exact
  keeps : SSAC.Keeps c c' (· ≠ id)
  points : SSAC.Points c c' fun vp' i' j' => vp' = vp ∧ i' = c.home id ∧ j' = j
  here : (c'.queue vp (c.home id)).entries[j]? = some e
  view : ∀ vp', c'.view vp' id = if vp' = vp then some (contents e) else c.view vp' id
  listed : c'.listed id = some d
  counts : SSAC.Counts c c'

theorem gains {e' : CacheEntrySimple} {d' : DirEntry} (h : c.Exact) (inside : vp < c.numproc)
    (isValid : Valid id) (here : (c.queue vp (c.home id)).entries[j]? = some e)
    (free : ¬ Valid e.id) (missing : c.view vp id = none)
    (atLine : (c.line (c.home id))[k]? = some d)
    (old : d.id = id ∨ ¬ Valid d.id ∧ c.listed id = none) (new : e'.id = id) (new' : d'.id = id)
    (bits : ∀ v, d'.vpmask.getLsbD v = ((c.view v id).isSome || decide (v = vp))) :
    Gains c vp j id e' d' ((c.setEntry vp (c.home id) j e').setDir (c.home id) k d') ∧
      lookupid id (((c.setEntry vp (c.home id) j e').setDir (c.home id) k d').line (c.home id)) =
        some k := by
  have fits : Fits c vp (c.home id) e e' := fun _ =>
    .inr ⟨by rw [new], by rw [new]; exact lookup_eq_none inside missing⟩
  let m := c.setEntry vp (c.home id) j e'
  have tables : m.Tables := h.setQueue here fits
  have atLine' : (m.line (c.home id))[k]? = some d := by
    rw [← atLine]
    exact congrArg (·[k]?) line_setQueue
  have sameListed : ∀ id, m.listed id = c.listed id := fun id => listed_setQueue
  have fitsLine : FitsLine m (c.home id) d d' := by
    refine ⟨fun _ => ?_, fun isFree => absurd (by rwa [new'] at *) isFree⟩
    rw [new', sameListed]
    obtain same | ⟨_, unlisted⟩ := old
    · exact .inl same.symm
    · exact .inr ⟨rfl, unlisted⟩
  have views : ∀ id' v, Valid id' → (m.setDir (c.home id) k d').view v id' =
      if v = vp ∧ id' = id then some (contents e') else c.view v id' := by
    intro id' v valid'
    rw [view_setDir]
    refine (h.view_setQueue here fits inside valid').trans ?_
    have other : e.id ≠ id' := fun same => free (by rwa [same])
    simp [new, other, eq_comm (a := id)]
  have listings : ∀ id', Valid id' → (m.setDir (c.home id) k d').listed id' =
      if id' = id then some d' else c.listed id' := by
    intro id' valid'
    rw [tables.listed_setDir atLine' fitsLine valid', new', sameListed]
    by_cases same : id' = id
    · simp [same]
    · have other : d.id ≠ id' := by
        rintro rfl
        obtain old | ⟨isFree, _⟩ := old
        · exact same old
        · exact isFree valid'
      rw [if_neg (Ne.symm same), if_neg other, if_neg same]
  have tables' := tables.setDir atLine' fitsLine
  refine ⟨⟨⟨tables', h.small, fun id' valid' v => ?_,
    fun id' b valid' there => ?_⟩, ⟨rfl, rfl, rfl, fun id' valid' apart v => ?_,
    fun id' valid' apart => ?_⟩, fun v i' j' apart => ?_, ?_, fun v => ?_, ?_, fun v i' => ?_⟩, ?_⟩
  · rw [SSAC.mask, listings id' valid', views id' v valid']
    by_cases same : id' = id
    · subst same
      rw [if_pos rfl, Option.elim_some, bits v]
      by_cases at_ : v = vp <;> simp [at_]
    · rw [if_neg same, if_neg fun both => same both.2, ← SSAC.mask, h.mask_eq id' valid' v]
  · rw [listings id' valid'] at there
    split_ifs at there with same
    · rw [Option.some.injEq] at there
      rintro empty
      have bit := bits vp
      rw [there, empty] at bit
      simp at bit
    · exact h.shared id' b valid' there
  · rw [views id' v valid', if_neg fun both => apart both.2]
  · rw [listings id' valid', if_neg apart]
  · rw [slot_setDir, SSAC.setEntry, slot_setQueue here, if_neg apart]
  · rw [queue_setDir, SSAC.setEntry, queue_setQueue, if_pos ⟨rfl, rfl⟩]
    exact List.getElem?_set_self (List.getElem?_eq_some_iff.mp here).1
  · rw [views id v isValid]
    simp
  · rw [listings id isValid, if_pos rfl]
  · rw [queue_setDir, counts_setEntry]
  · refine lookupid_at tables' isValid ?_ new'
    exact (congrArg (·[k]?) (line_setDir.trans (if_pos rfl))).trans
      (List.getElem?_set_self (List.getElem?_eq_some_iff.mp atLine').1)

/-- The entry that `fill` makes. -/
def filled (e : CacheEntrySimple) (id : CacheObjectIdSimple) (data : Nat) : CacheEntrySimple :=
  { e with busy := false, dirty := false, id, data }

/-- It does not matter what was in the entry. -/
theorem fill_freed {direntry : Option Nat} (here : (c.queue vp (c.home id)).entries[j]? = some e) :
    fill (c.setEntry vp (c.home id) j (freed e)) store vp id j direntry =
      fill c store vp id j direntry := by
  have slot : (c.setEntry vp (c.home id) j (freed e)).slot vp (c.home id) j = freed e := by
    rw [SSAC.setEntry, slot_setQueue here, if_pos ⟨rfl, rfl, rfl⟩]
  have twice : ∀ x, (c.setEntry vp (c.home id) j (freed e)).setEntry vp (c.home id) j x =
      c.setEntry vp (c.home id) j x := fun x => by
    simp [SSAC.setEntry, SSAC.setQueue, SSAC.setRep, SSAC.queue]
  have home : (c.setEntry vp (c.home id) j (freed e)).home id = c.home id := rfl
  have direntry : ∀ k, (c.setEntry vp (c.home id) j (freed e)).direntry (c.home id) k =
      c.direntry (c.home id) k := fun k => congrArg (·.getD k .new) line_setQueue
  simp only [fill, home, slot, twice, direntry, slot_eq here]
  rfl

/-- The caches when the entry at position `j` has become free for an object. -/
structure Frees (c : SSAC) (store : Store) (vp j : Nat) (id : CacheObjectIdSimple) (m : SSAC)
    (store' : Store) : Prop where
  exact : m.Exact
  numproc : m.numproc = c.numproc
  home : m.home id = c.home id
  here : ∃ e, (m.queue vp (c.home id)).entries[j]? = some e ∧ ¬ Valid e.id ∧ e.busy = false
  view : ∀ vp', m.view vp' id = c.view vp' id
  listed : m.listed id = c.listed id
  lookup : lookupid id (m.line (c.home id)) = lookupid id (c.line (c.home id))
  counts : SSAC.Counts c m
  outcome : m = c ∧ store' = store ∨
    ∃ e, (c.queue vp (c.home id)).entries[j]? = some e ∧ e.busy = false ∧ Valid e.id ∧
      Evicts c store vp (c.home id) j e m store'

/-- The first part of a miss frees the entry that `lruentry` has chosen. -/
theorem clean_frees (store : Store) (h : c.Exact) (inside : vp < c.numproc) (isValid : Valid id)
    (missing : c.view vp id = none) (victim : lruentry (c.queue vp (c.home id)).entries = some j) :
    ∃ m m' store', clean c store vp (c.home id) j = some (m, store') ∧
      (∀ direntry, fill m store' vp id j direntry = fill m' store' vp id j direntry) ∧
      Frees c store vp j id m' store' := by
  obtain ⟨bound, idle⟩ := SSACSimpleSharedArray.lruentry_cases victim
  rw [SSACSimpleSharedArray.entryAt_eq bound] at idle
  have here := List.getElem?_eq_getElem bound
  generalize (c.queue vp (c.home id)).entries[j] = e at here idle
  by_cases used : Valid e.id
  · obtain ⟨m, store', run, there, evicts⟩ := clean_spec store h inside here used
    have apart : id ≠ e.id := by
      rintro rfl
      rw [h.view_at inside here used] at missing
      cases missing
    have home : m.home id = c.home id := evicts.keeps.home
    refine ⟨m, _, store', run, fun direntry => ?_, evicts.exact, evicts.keeps.numproc, home,
      ⟨freed e, evicts.freed, not_valid_invalid, idle⟩, evicts.keeps.view id isValid apart,
      evicts.keeps.listed id isValid apart, evicts.lookup id apart isValid, evicts.counts,
      .inr ⟨e, here, idle, used, evicts⟩⟩
    rw [← home, fill_freed (home ▸ there)]
  · refine ⟨c, c, store, ?_, fun _ => rfl, h, rfl, rfl, ⟨e, here, used, idle⟩, fun _ => rfl, rfl,
      rfl, fun _ _ => rfl, .inl ⟨rfl, rfl⟩⟩
    rw [clean, slot_eq here, if_neg (show ¬ valid e.id = true from used)]

/-- An object that is in the directory is copied from another processor. -/
theorem fill_fetch (store : Store) (h : c.Exact) (inside : vp < c.numproc) (isValid : Valid id)
    (here : (c.queue vp (c.home id)).entries[j]? = some e) (free : ¬ Valid e.id)
    (missing : c.view vp id = none) (found : lookupid id (c.line (c.home id)) = some k) :
    ∃ vp' x d c', c.view vp' id = some x ∧ c.listed id = some d ∧
      fill c store vp id j (some k) = some c' ∧
      Gains c vp j id (filled e id x.data) (d.addvp vp) c' ∧
      lookupid id (c'.line (c.home id)) = some k := by
  have small : vp < 64 := by have := h.small; omega
  obtain ⟨atLine, idLine⟩ := lookupid_eq_some found
  have listed := listed_of_lookupid h.toTables isValid found
  -- The first processor in the mask has a copy, and it is another one.
  obtain ⟨v, rest, bits⟩ : ∃ v rest, Bits.set (c.direntry (c.home id) k).vpmask = v :: rest :=
    List.exists_cons_of_ne_nil fun none =>
      h.shared id _ isValid listed (Bits.set_eq_nil_iff.mp none)
  have member : v ∈ Bits.set (c.direntry (c.home id) k).vpmask := by rw [bits]; simp
  rw [Bits.mem_set, h.bit isValid listed] at member
  have apart : v ≠ vp := by
    rintro rfl
    rw [missing] at member
    cases member
  rw [← copy_isSome] at member
  obtain ⟨f, copy⟩ := Option.isSome_iff_exists.mp member
  obtain ⟨_, l, search, there⟩ := search_of_copy copy
  refine ⟨v, contents f, _, (c.setEntry vp (c.home id) j (filled e id f.data)).setDir (c.home id) k
    ((c.direntry (c.home id) k).addvp vp), by rw [SSAC.view, copy, Option.map_some], listed, ?_,
    gains h inside isValid here free missing atLine (.inl idLine) rfl idLine fun v => ?_⟩
  · have queue : ∀ x, (c.setEntry vp (c.home id) j x).queue v (c.home id) =
        c.queue v (c.home id) := fun x => by
      rw [SSAC.setEntry, queue_setQueue, if_neg fun both => apart both.1]
    rw [fill, getremotecopyfromdir, bits]
    simp only [if_neg apart, idLine, slot_eq here]
    rw [show (c.setEntry vp (c.home id) j { e with busy := false, dirty := false, id }).home id =
      c.home id from rfl, queue, search, Option.map_some, SSAC.slot, queue, Option.map_some]
    rw [show entryAt (c.queue v (c.home id)).entries l = f from slot_eq there]
    rfl
  · rw [getLsbD_addvp small, h.bit isValid listed]

/-- An object that is not in the directory is loaded. -/
theorem fill_load (store : Store) (h : c.Exact) (inside : vp < c.numproc) (isValid : Valid id)
    (here : (c.queue vp (c.home id)).entries[j]? = some e) (free : ¬ Valid e.id)
    (unlisted : c.listed id = none) :
    ∃ d c', d.busy = false ∧ d.modified = false ∧ fill c store vp id j none = some c' ∧
      Gains c vp j id (filled e id (store id)) d c' := by
  have small : vp < 64 := by have := h.small; omega
  have nowhere : ∀ v, c.view v id = none := fun v => h.nowhere isValid unlisted
  have bound : j < c.associativity := by
    rw [← h.length vp (c.home id)]
    exact (List.getElem?_eq_some_iff.mp here).1
  obtain ⟨k, found⟩ := exists_free h inside bound (i := c.home id) (by rwa [slot_eq here])
  obtain ⟨inLine, isFree, _⟩ := List.findIdx?_eq_some_iff_getElem.mp found
  have atLine : (c.line (c.home id))[k]? = some .new := by
    rw [List.getElem?_eq_getElem inLine, Option.some.injEq]
    exact h.unused (c.home id) _ (List.getElem_mem inLine) (by simpa [Valid] using isFree)
  refine ⟨({ DirEntry.new with id } : DirEntry).clearall.addvp vp, _, rfl, rfl, ?_,
    (gains h inside isValid here free (nowhere vp) atLine
      (.inr ⟨not_valid_invalid, unlisted⟩) rfl rfl fun v => ?_).1⟩
  · have line : ∀ x, (c.setEntry vp (c.home id) j x).line (c.home id) = c.line (c.home id) :=
      fun x => line_setQueue
    have direntry : ∀ x, (c.setEntry vp (c.home id) j x).direntry (c.home id) k = .new := fun x =>
      direntry_eq (by rw [line]; exact atLine)
    rw [fill, adddirentry, slot_eq here]
    simp only [line, found, direntry, Option.map_some]
    rfl
  · rw [getLsbD_addvp small, nowhere v]
    simp [DirEntry.clearall, DirEntry.new]

/-! ### Handing out an entry -/

/-- The caches when an entry was handed out. -/
structure Hands (c : SSAC) (vp : Nat) (id : CacheObjectIdSimple) (type : GetType) (j : Nat)
    (e : CacheEntrySimple) (c' : SSAC) : Prop where
  exact : c'.Exact
  keeps : SSAC.Keeps c c' (· ≠ id)
  points : SSAC.Points c c' fun _ _ _ => False
  data : (c'.slot vp (c.home id) j).data = e.data
  outcome :
    (type = .getForRead ∧ SSAC.Keeps c c' fun _ => True) ∨
    (type = .getForWrite ∧
      (∀ v, c'.view v id = (c.view v id).map fun x => { x with busy := true }) ∧
      c'.listed id = (c.listed id).map fun d => { d with busy := true })

/-- A writer makes all copies BUSY, if the variable `direntry` is right. -/
theorem own_spec (h : c.Exact) (inside : vp < c.numproc) (isValid : Valid id)
    (here : (c.queue vp (c.home id)).entries[j]? = some e) (idEq : e.id = id)
    {direntry : Option Nat}
    (fresh : direntry.or (lookupid id (c.line (c.home id))) = lookupid id (c.line (c.home id))) :
    ∃ c', own c vp id .getForWrite j direntry = some c' ∧ c'.Exact ∧
      SSAC.Keeps c c' (· ≠ id) ∧ SSAC.Points c c' (fun _ _ _ => False) ∧
      (∀ v, c'.view v id = (c.view v id).map fun x => { x with busy := true }) ∧
      c'.listed id = (c.listed id).map (fun d => { d with busy := true }) ∧ SSAC.Counts c c' := by
  have view := h.view_at inside here (idEq.symm ▸ isValid)
  rw [idEq] at view
  obtain ⟨d, listed⟩ := h.listed_of_view isValid view
  obtain ⟨k, found, _⟩ := lookupid_of_listed h.toTables isValid listed
  obtain ⟨c', run, rest⟩ := forCopies_spec (f := fun e => { e with busy := true })
    (g := fun e => { e with busy := true }) (F := fun x => { x with busy := true })
    true h isValid inside found here idEq (fun _ => rfl) (fun _ => rfl) rfl rfl
  refine ⟨c', ?_, rest⟩
  rw [own, fresh, found, ← run]
  rfl

theorem hand_spec {type : GetType} {direntry : Option Nat} (h : c.Exact) (inside : vp < c.numproc)
    (isValid : Valid id) (here : (c.queue vp (c.home id)).entries[j]? = some e) (idEq : e.id = id)
    (fresh : type = .getForWrite →
      direntry.or (lookupid id (c.line (c.home id))) = lookupid id (c.line (c.home id)))
    (done : hand c vp id type j direntry = some c') : Hands c vp id type j e c' := by
  have bound : j < c.associativity := by
    rw [← h.length vp (c.home id)]
    exact (List.getElem?_eq_some_iff.mp here).1
  have view := h.view_at inside here (idEq.symm ▸ isValid)
  rw [idEq] at view
  rw [hand, Option.bind_eq_some_iff] at done
  obtain ⟨m, owned, touched⟩ := done
  -- The data is read off the copy of the processor.
  have data : ∀ {x : Coherence.Copy Nat}, c'.Exact → SSAC.Points c c' (fun _ _ _ => False) →
      c'.numproc = c.numproc → c'.associativity = c.associativity → c'.view vp id = some x →
        (c'.slot vp (c.home id) j).data = x.data := by
    intro x exact points numproc associativity view'
    have sameId : (c'.slot vp (c.home id) j).id = id := by
      rw [points vp _ j not_false, slot_eq here, idEq]
    have view := exact.view_at (numproc ▸ inside)
      (slot_here exact.toTables vp (c.home id) (associativity ▸ bound)) (sameId.symm ▸ isValid)
    rw [sameId, view', Option.some.injEq] at view
    rw [view]
    rfl
  cases type with
  | getForRead =>
      obtain rfl : c = m := Option.some.inj owned
      obtain ⟨exact, keeps, points⟩ := touch_spec h inside here touched
      refine ⟨exact, keeps.mono fun _ _ => trivial, points, ?_, .inl ⟨rfl, keeps⟩⟩
      exact data exact points keeps.numproc keeps.associativity
        ((keeps.view id isValid trivial vp).trans view)
  | getForWrite =>
      obtain ⟨m', run, exact, keeps, points, views, listed, _⟩ :=
        own_spec h inside isValid here idEq (fresh rfl)
      obtain rfl : m' = m := Option.some.inj (run.symm.trans owned)
      have here' := slot_here exact.toTables vp (c.home id) (keeps.associativity ▸ bound)
      obtain ⟨exact', keeps', points'⟩ := touch_spec exact (keeps.numproc ▸ inside) here'
        (by rwa [← keeps.home])
      have points'' : SSAC.Points c c' fun _ _ _ => False := fun vp i j _ =>
        (points' vp i j not_false).trans (points vp i j not_false)
      have views' : ∀ v, c'.view v id = (c.view v id).map fun x => { x with busy := true } :=
        fun v => (keeps'.view id isValid trivial v).trans (views v)
      refine ⟨exact', keeps.trans (keeps'.mono fun _ _ => trivial), points'', ?_,
        .inr ⟨rfl, views', (keeps'.listed id isValid trivial).trans listed⟩⟩
      exact data exact' points'' (keeps'.numproc.trans keeps.numproc)
        (keeps'.associativity.trans keeps.associativity) (by rw [views', view]; rfl)

/-! ### Assertions -/

/-- The count of a queue does not overflow with the next access. -/
def SSAC.Room (c : SSAC) (vp i : Nat) : Prop := ((c.queue vp i).count + 1) % 2 ^ 64 ≠ 0

theorem touch_isSome (room : c.Room vp i) : (touch c vp i j).isSome := by
  rw [touch, if_neg room]
  rfl

/-- No assertion fails when an entry is handed out. -/
theorem hand_isSome {type : GetType} {direntry : Option Nat} (h : c.Exact)
    (inside : vp < c.numproc) (isValid : Valid id)
    (here : (c.queue vp (c.home id)).entries[j]? = some e) (idEq : e.id = id)
    (fresh : type = .getForWrite →
      direntry.or (lookupid id (c.line (c.home id))) = lookupid id (c.line (c.home id)))
    (room : c.Room vp (c.home id)) : (hand c vp id type j direntry).isSome := by
  cases type with
  | getForRead => exact touch_isSome room
  | getForWrite =>
      obtain ⟨m, owned, _, keeps, _, _, _, counts⟩ :=
        own_spec h inside isValid here idEq (fresh rfl)
      rw [hand, owned, Option.bind_some, keeps.home]
      exact touch_isSome (by rwa [SSAC.Room, counts])

/-- None fails in a miss either. -/
theorem miss_isSome {type : GetType} (store : Store) (h : c.Exact) (inside : vp < c.numproc)
    (isValid : Valid id) (missing : c.view vp id = none) (room : c.Room vp (c.home id)) :
    (miss c store vp id type).isSome := by
  rw [miss]
  split_ifs
  · rfl
  cases victim : lruentry (c.queue vp (c.home id)).entries with
  | none => rfl
  | some j =>
      obtain ⟨m, m', store', run, same, frees⟩ := clean_frees store h inside isValid missing victim
      obtain ⟨e, here, free, _⟩ := frees.here
      rw [← frees.home] at here
      have inside' : vp < m'.numproc := frees.numproc ▸ inside
      have missing' : m'.view vp id = none := (frees.view vp).trans missing
      have room' : m'.Room vp (m'.home id) := by rwa [SSAC.Room, frees.counts, frees.home]
      simp only [run, Option.bind_some, same, ← frees.lookup]
      rw [← frees.home]
      cases found : lookupid id (m'.line (m'.home id)) with
      | some k =>
          obtain ⟨v, x, d, l, _, _, filled, gains, again⟩ :=
            fill_fetch store' frees.exact inside' isValid here free missing' found
          have handed : (hand l vp id type j (some k)).isSome := hand_isSome gains.exact
            (gains.keeps.numproc ▸ inside') isValid (gains.keeps.home ▸ gains.here) rfl
            (fun _ => by rw [gains.keeps.home, again, Option.some_or])
            (by rwa [SSAC.Room, gains.counts, gains.keeps.home])
          rw [filled, Option.bind_some, Option.isSome_map]
          exact handed
      | none =>
          obtain ⟨d, l, _, _, filled, gains⟩ :=
            fill_load store' frees.exact inside' isValid here free (listed_of_lookupid_none found)
          have handed : (hand l vp id type j none).isSome := hand_isSome gains.exact
            (gains.keeps.numproc ▸ inside') isValid (gains.keeps.home ▸ gains.here) rfl
            (fun _ => Option.none_or) (by rwa [SSAC.Room, gains.counts, gains.keeps.home])
          rw [filled, Option.bind_some, Option.isSome_map]
          exact handed

end

end EBBLib.SSACSimpleReplicatedArray
