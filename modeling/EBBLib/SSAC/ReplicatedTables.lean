import EBBLib.Library.Coherence
import EBBLib.Library.Keyed
import EBBLib.SSAC.SimpleReplicatedArray
import EBBLib.SSAC.Slots

/-!
# Copies and directory entries by id

The replicated cache is described by what it has for each id: the copy of every processor and
the entry of the directory. As long as a queue or a line has no valid id twice, and only ids
with its own index, replacing an entry changes this for two ids at most.
-/

namespace EBBLib.SSACSimpleReplicatedArray

open SSACSimpleSharedArray (CacheObjectIdSimple CacheEntrySimple entryAt)
open SSACSimpleSharedArray.CacheObjectIdSimple
open SSACSimpleSharedArray.HashQueues (search lruentry)

/-- The ids that name an object. -/
def Valid (id : CacheObjectIdSimple) : Prop := valid id = true

/-- What an entry tells about its object. -/
def contents (e : CacheEntrySimple) : Coherence.Copy Nat := ⟨e.data, e.dirty, e.busy⟩

namespace SSAC

variable (c : SSAC)

/-- The copy of a processor. -/
def copy (vp : Nat) (id : CacheObjectIdSimple) : Option CacheEntrySimple :=
  if vp < c.numproc then
    Keyed.lookup CacheEntrySimple.id id (c.queue vp (c.home id)).entries
  else none

/-- What the copy of a processor tells about the object. -/
def view (vp : Nat) (id : CacheObjectIdSimple) : Option (Coherence.Copy Nat) :=
  (c.copy vp id).map contents

/-- The entry of the directory. -/
def listed (id : CacheObjectIdSimple) : Option DirEntry :=
  Keyed.lookup DirEntry.id id (c.line (c.home id))

/-- The lists have the lengths that the constructor gives them, and each valid id is in at most
one place of them, in the queues and the line with its index. -/
structure Tables : Prop where
  positive : 0 < c.numproc
  length : ∀ vp i, (c.queue vp i).entries.length = c.associativity
  lengthLine : ∀ i, (c.line i).length = c.associativity * c.numproc
  distinct : ∀ vp i, Keyed.Distinct CacheEntrySimple.id Valid (c.queue vp i).entries
  distinctLine : ∀ i, Keyed.Distinct DirEntry.id Valid (c.line i)
  placed : ∀ vp i, ∀ e ∈ (c.queue vp i).entries, Valid e.id → c.home e.id = i
  placedLine : ∀ i, ∀ d ∈ c.line i, Valid d.id → c.home d.id = i
  unused : ∀ i, ∀ d ∈ c.line i, ¬ Valid d.id → d = .new

end SSAC

/-! ### Reading after a replacement -/

section

variable {c : SSAC} {vp vp' i i' j k n : Nat} {q : HashQueues} {l : List DirEntry}
  {e : CacheEntrySimple} {d : DirEntry}

theorem dirplace_eq {numproc : Nat} (positive : 0 < numproc) :
    dirplace numproc i = (i % numproc, i / numproc) := by
  have whole : i - i % numproc = numproc * (i / numproc) := by
    have := Nat.div_add_mod i numproc
    omega
  rw [dirplace, whole, Nat.mul_div_cancel_left _ positive]

/-- Two lines never have the same place. -/
theorem dirplace_inj {numproc : Nat} (same : dirplace numproc i = dirplace numproc i') :
    i = i' := by
  obtain rfl | positive := Nat.eq_zero_or_pos numproc
  · obtain ⟨remainder, _⟩ := Prod.mk.inj same
    simpa using remainder
  · rw [dirplace_eq positive, dirplace_eq positive] at same
    obtain ⟨remainder, quotient⟩ := Prod.mk.inj same
    rw [← Nat.div_add_mod i numproc, ← Nat.div_add_mod i' numproc, quotient, remainder]

/-- The lines of the queues are exactly the ones that the constructors allocate: each of these
is the place of one index. -/
theorem dirplace_allocated {numhashqs numproc : Nat} (positive : 0 < numproc) (vp offset : Nat) :
    (vp < numproc ∧ offset < dirlinesOn numhashqs numproc vp) ↔
      ∃! i, i < numhashqs ∧ dirplace numproc i = (vp, offset) := by
  have whole := Nat.div_add_mod numhashqs numproc
  have rest := Nat.mod_lt numhashqs positive
  constructor
  · rintro ⟨inside, bound⟩
    refine ⟨numproc * offset + vp, ⟨?_, ?_⟩, fun i there => dirplace_inj (there.2.trans ?_)⟩
    · rw [dirlinesOn] at bound
      split_ifs at bound
      · have := Nat.mul_le_mul_left numproc (Nat.le_of_lt_succ bound)
        omega
      · have := Nat.mul_le_mul_left numproc (Nat.succ_le_of_lt bound)
        rw [Nat.mul_succ] at this
        omega
    all_goals
      rw [dirplace_eq positive, Nat.mul_add_mod, Nat.mod_eq_of_lt inside,
        Nat.mul_add_div positive, Nat.div_eq_of_lt inside, Nat.add_zero]
  · rintro ⟨i, ⟨small, place⟩, _⟩
    rw [dirplace_eq positive] at place
    obtain ⟨rfl, rfl⟩ := Prod.mk.inj place
    refine ⟨Nat.mod_lt i positive, ?_⟩
    have whole' := Nat.div_add_mod i numproc
    have le : i / numproc ≤ numhashqs / numproc := Nat.div_le_div_right small.le
    rw [dirlinesOn]
    split_ifs with early
    · omega
    · refine lt_of_le_of_ne le fun same => ?_
      rw [same] at whole'
      omega

/-- Five lines on two processors. -/
theorem dirplace_five : ∃! i, i < 5 ∧ dirplace 2 i = (0, 2) :=
  (dirplace_allocated (by decide) 0 2).mp ⟨by decide, by decide⟩

@[simp] theorem setQueue_numproc : (c.setQueue vp i q).numproc = c.numproc := rfl

@[simp] theorem setQueue_home (id : CacheObjectIdSimple) :
    (c.setQueue vp i q).home id = c.home id :=
  rfl

@[simp] theorem setQueue_associativity : (c.setQueue vp i q).associativity = c.associativity := rfl

@[simp] theorem setDir_numproc : (c.setDir i k d).numproc = c.numproc := rfl

@[simp] theorem setDir_home (id : CacheObjectIdSimple) : (c.setDir i k d).home id = c.home id := rfl

@[simp] theorem setDir_associativity : (c.setDir i k d).associativity = c.associativity := rfl

theorem queue_setQueue :
    (c.setQueue vp i q).queue vp' i' = if vp' = vp ∧ i' = i then q else c.queue vp' i' := by
  by_cases here : vp' = vp
  · subst here
    by_cases there : i' = i <;> simp [SSAC.setQueue, SSAC.setRep, SSAC.queue, there]
  · simp [SSAC.setQueue, SSAC.setRep, SSAC.queue, here]

@[simp] theorem line_setQueue : (c.setQueue vp i q).line i' = c.line i' := by
  by_cases here : (dirplace c.numproc i').1 = vp
  · subst here
    simp [SSAC.setQueue, SSAC.setRep, SSAC.line]
  · simp [SSAC.setQueue, SSAC.setRep, SSAC.line, here]

@[simp] theorem queue_setDir : (c.setDir i k d).queue vp' i' = c.queue vp' i' := by
  by_cases here : vp' = (dirplace c.numproc i).1
  · subst here
    simp [SSAC.setDir, SSAC.setLine, SSAC.setRep, SSAC.queue]
  · simp [SSAC.setDir, SSAC.setLine, SSAC.setRep, SSAC.queue, here]

theorem line_setDir :
    (c.setDir i k d).line i' = if i' = i then (c.line i).set k d else c.line i' := by
  by_cases same : i' = i
  · subst same
    simp [SSAC.setDir, SSAC.setLine, SSAC.setRep, SSAC.line]
  · rw [if_neg same]
    have apart : dirplace c.numproc i' ≠ dirplace c.numproc i := fun clash =>
      same (dirplace_inj clash)
    by_cases here : (dirplace c.numproc i').1 = (dirplace c.numproc i).1
    · have offset : (dirplace c.numproc i').2 ≠ (dirplace c.numproc i).2 := fun clash =>
        apart (Prod.ext here clash)
      simp [SSAC.setDir, SSAC.setLine, SSAC.setRep, SSAC.line, here, offset]
    · simp [SSAC.setDir, SSAC.setLine, SSAC.setRep, SSAC.line, here]

/-! ### What there is for an id afterwards -/

/-- The entry at position `j` may be replaced by one with another id that belongs in the queue
and is not there yet. -/
def Fits (c : SSAC) (vp i : Nat) (e e' : CacheEntrySimple) : Prop :=
  Valid e'.id → e'.id = e.id ∨
    c.home e'.id = i ∧ Keyed.lookup CacheEntrySimple.id e'.id (c.queue vp i).entries = none

/-- The same for a line. -/
def FitsLine (c : SSAC) (i : Nat) (d d' : DirEntry) : Prop :=
  (Valid d'.id → d'.id = d.id ∨ c.home d'.id = i ∧ c.listed d'.id = none) ∧
    (¬ Valid d'.id → d' = .new)

section

variable {e' : CacheEntrySimple} {d' : DirEntry} {id : CacheObjectIdSimple}

@[simp] theorem listed_setQueue : (c.setQueue vp i q).listed id = c.listed id := by
  simp [SSAC.listed]

@[simp] theorem copy_setDir : (c.setDir i k d').copy vp id = c.copy vp id := by
  simp [SSAC.copy]

@[simp] theorem view_setDir : (c.setDir i k d').view vp id = c.view vp id := by
  simp [SSAC.view]

namespace SSAC.Tables

theorem setQueue (h : c.Tables) (here : (c.queue vp i).entries[j]? = some e)
    (fits : Fits c vp i e e') :
    (c.setQueue vp i ⟨n, (c.queue vp i).entries.set j e'⟩).Tables where
  positive := h.positive
  length vp' i' := by
    rw [queue_setQueue]
    split_ifs with there
    · simpa using h.length vp i
    · exact h.length vp' i'
  lengthLine i' := by simpa using h.lengthLine i'
  distinct vp' i' := by
    rw [queue_setQueue]
    split_ifs
    · exact (h.distinct vp i).set here fun isValid => (fits isValid).imp_right And.right
    · exact h.distinct vp' i'
  distinctLine i' := by simpa using h.distinctLine i'
  placed vp' i' f member isValid := by
    rw [queue_setQueue] at member
    split_ifs at member with there
    · obtain old | rfl := List.mem_or_eq_of_mem_set member
      · exact there.2 ▸ h.placed vp i f old isValid
      · obtain same | ⟨home, _⟩ := fits isValid
        · rw [setQueue_home, same]
          exact there.2 ▸ h.placed vp i e (List.mem_of_getElem? here) (same ▸ isValid)
        · exact there.2 ▸ home
    · exact h.placed vp' i' f member isValid
  placedLine i' f member := h.placedLine i' f (by simpa using member)
  unused i' f member := h.unused i' f (by simpa using member)

theorem setDir (h : c.Tables) (here : (c.line i)[k]? = some d) (fits : FitsLine c i d d') :
    (c.setDir i k d').Tables where
  positive := h.positive
  length vp' i' := by simpa using h.length vp' i'
  lengthLine i' := by
    rw [line_setDir]
    split_ifs
    · simpa using h.lengthLine i
    · exact h.lengthLine i'
  distinct vp' i' := by simpa using h.distinct vp' i'
  distinctLine i' := by
    rw [line_setDir]
    split_ifs
    · refine (h.distinctLine i).set here fun isValid => (fits.1 isValid).imp_right ?_
      rintro ⟨home, missing⟩
      rwa [SSAC.listed, home] at missing
    · exact h.distinctLine i'
  placed vp' i' f member := h.placed vp' i' f (by simpa using member)
  placedLine i' f member isValid := by
    rw [line_setDir] at member
    split_ifs at member with there
    · obtain old | rfl := List.mem_or_eq_of_mem_set member
      · exact there ▸ h.placedLine i f old isValid
      · obtain same | ⟨home, _⟩ := fits.1 isValid
        · rw [setDir_home, same]
          exact there ▸ h.placedLine i d (List.mem_of_getElem? here) (same ▸ isValid)
        · exact there ▸ home
    · exact h.placedLine i' f member isValid
  unused i' f member isFree := by
    rw [line_setDir] at member
    split_ifs at member with there
    · obtain old | rfl := List.mem_or_eq_of_mem_set member
      · exact h.unused i f old isFree
      · exact fits.2 isFree
    · exact h.unused i' f member isFree

/-- The copies after the replacement of an entry. -/
theorem copy_setQueue (h : c.Tables) (here : (c.queue vp i).entries[j]? = some e)
    (fits : Fits c vp i e e') (inside : vp < c.numproc) (isValid : Valid id) :
    (c.setQueue vp i ⟨n, (c.queue vp i).entries.set j e'⟩).copy vp' id =
      if vp' = vp ∧ e'.id = id then some e'
      else if vp' = vp ∧ e.id = id then none
      else c.copy vp' id := by
  have placed : e'.id = id ∨ e.id = id → c.home id = i := by
    rintro (rfl | rfl)
    · obtain same | ⟨home, _⟩ := fits isValid
      · rw [same]
        exact h.placed vp i e (List.mem_of_getElem? here) (same ▸ isValid)
      · exact home
    · exact h.placed vp i e (List.mem_of_getElem? here) isValid
  rw [SSAC.copy, SSAC.copy, queue_setQueue, setQueue_numproc, setQueue_home]
  by_cases there : vp' = vp
  · subst there
    by_cases home : c.home id = i
    · subst home
      rw [if_pos inside, if_pos inside, if_pos ⟨rfl, rfl⟩,
        (h.distinct vp' _).lookup_set here (fun v => (fits v).imp_right And.right) isValid]
      simp
    · have new : e'.id ≠ id := fun same => home (placed (.inl same))
      have old : e.id ≠ id := fun same => home (placed (.inr same))
      simp [home, new, old]
  · simp [there]

theorem view_setQueue (h : c.Tables) (here : (c.queue vp i).entries[j]? = some e)
    (fits : Fits c vp i e e') (inside : vp < c.numproc) (isValid : Valid id) :
    (c.setQueue vp i ⟨n, (c.queue vp i).entries.set j e'⟩).view vp' id =
      if vp' = vp ∧ e'.id = id then some (contents e')
      else if vp' = vp ∧ e.id = id then none
      else c.view vp' id := by
  rw [SSAC.view, h.copy_setQueue here fits inside isValid, SSAC.view]
  split_ifs <;> rfl

/-- The directory after the replacement of an entry. -/
theorem listed_setDir (h : c.Tables) (here : (c.line i)[k]? = some d) (fits : FitsLine c i d d')
    (isValid : Valid id) :
    (c.setDir i k d').listed id =
      if d'.id = id then some d' else if d.id = id then none else c.listed id := by
  have placed : d'.id = id ∨ d.id = id → c.home id = i := by
    rintro (rfl | rfl)
    · obtain same | ⟨home, _⟩ := fits.1 isValid
      · rw [same]
        exact h.placedLine i d (List.mem_of_getElem? here) (same ▸ isValid)
      · exact home
    · exact h.placedLine i d (List.mem_of_getElem? here) isValid
  rw [SSAC.listed, SSAC.listed, line_setDir, setDir_home]
  by_cases home : c.home id = i
  · subst home
    rw [if_pos rfl, (h.distinctLine _).lookup_set here ?_ isValid]
    intro v
    refine (fits.1 v).imp_right ?_
    rintro ⟨same, missing⟩
    rwa [SSAC.listed, same] at missing
  · have new : d'.id ≠ id := fun same => home (placed (.inl same))
    have old : d.id ≠ id := fun same => home (placed (.inr same))
    simp [home, new, old]

end SSAC.Tables

/-! ### Where the lists have an id -/

theorem search_eq_some {es : List CacheEntrySimple} (found : search id es = some j) :
    es[j]? = some (entryAt es j) ∧ (entryAt es j).id = id := by
  obtain ⟨pre, e, post, rfl, rfl, same⟩ := SSACSimpleSharedArray.search_some found
  simp [same]

theorem copy_of_search_none (missing : search id (c.queue vp (c.home id)).entries = none) :
    c.copy vp id = none := by
  rw [SSAC.copy]
  split_ifs
  · exact Keyed.lookup_eq_none_iff.mpr (SSACSimpleSharedArray.search_none missing)
  · rfl

/-- A copy is where the search finds it. -/
theorem search_of_copy (found : c.copy vp id = some e) : vp < c.numproc ∧
    ∃ j, search id (c.queue vp (c.home id)).entries = some j ∧
      (c.queue vp (c.home id)).entries[j]? = some e := by
  rw [SSAC.copy] at found
  split_ifs at found with inside
  refine ⟨inside, ?_⟩
  -- The first entry with the id is the one that `find?` returns.
  generalize (c.queue vp (c.home id)).entries = es at found
  induction es with
  | nil => cases found
  | cons f es ih =>
      rw [Keyed.lookup, List.find?_cons] at found
      by_cases here : f.id = id
      · simp only [here, decide_true, Option.some.injEq] at found
        exact ⟨0, by simp [search, here], by simp [found]⟩
      · simp only [here, decide_false] at found
        obtain ⟨j, later, there⟩ := ih found
        exact ⟨j + 1, by simp [search, Ne.symm here, later], by simpa using there⟩

theorem lookupid_eq_some (found : lookupid id (c.line i) = some k) :
    (c.line i)[k]? = some (c.direntry i k) ∧ (c.direntry i k).id = id := by
  obtain ⟨bound, same, _⟩ := List.findIdx?_eq_some_iff_getElem.mp found
  have here : c.direntry i k = (c.line i)[k] := by
    rw [SSAC.direntry, List.getD_eq_getElem?_getD, List.getElem?_eq_getElem bound, Option.getD_some]
  exact ⟨by rw [here, List.getElem?_eq_getElem bound],
    by simpa [here] using (of_decide_eq_true same).symm⟩

theorem listed_of_lookupid (h : c.Tables) (isValid : Valid id)
    (found : lookupid id (c.line (c.home id)) = some k) :
    c.listed id = some (c.direntry (c.home id) k) := by
  obtain ⟨here, same⟩ := lookupid_eq_some found
  exact (h.distinctLine _).lookup_eq isValid here same

theorem listed_of_lookupid_none (missing : lookupid id (c.line (c.home id)) = none) :
    c.listed id = none := by
  rw [lookupid, List.findIdx?_eq_none_iff] at missing
  rw [SSAC.listed, Keyed.lookup_eq_none_iff]
  intro d member same
  simpa [same] using missing d member

theorem lookupid_of_listed (h : c.Tables) (isValid : Valid id) (found : c.listed id = some d) :
    ∃ k, lookupid id (c.line (c.home id)) = some k ∧ c.direntry (c.home id) k = d := by
  cases lookup : lookupid id (c.line (c.home id)) with
  | none =>
      rw [listed_of_lookupid_none lookup] at found
      cases found
  | some k =>
      rw [listed_of_lookupid h isValid lookup, Option.some.injEq] at found
      exact ⟨k, rfl, found⟩

end

end

end EBBLib.SSACSimpleReplicatedArray
