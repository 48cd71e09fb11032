import EBBLib.SSAC.ReplicatedTables

/-!
# The directory of the replicated cache

The mask of an id in the directory is exactly the set of processors that have a copy. Each
function of the cache is described by what it changes for the ids, under this invariant.
-/

namespace EBBLib.SSACSimpleReplicatedArray

open SSACSimpleSharedArray (CacheObjectIdSimple CacheEntrySimple GetType PutFlag Store entryAt)
open SSACSimpleSharedArray.CacheObjectIdSimple
open SSACSimpleSharedArray.HashQueues (search lruentry)

namespace SSAC

variable (c c' : SSAC)

/-- The processors that the directory lists for an id. -/
def mask (id : CacheObjectIdSimple) : BitVec 64 := (c.listed id).elim 0#64 DirEntry.vpmask

/-- The directory is exact. An `int` has a bit for every processor. -/
structure Exact : Prop extends c.Tables where
  small : c.numproc ≤ 31
  mask_eq : ∀ id, Valid id → ∀ vp, (c.mask id).getLsbD vp = (c.view vp id).isSome
  shared : ∀ id d, Valid id → c.listed id = some d → d.vpmask ≠ 0#64

/-- The caches are the same but for some ids. -/
structure Keeps (other : CacheObjectIdSimple → Prop) : Prop where
  numproc : c'.numproc = c.numproc
  numhashqs : c'.numhashqs = c.numhashqs
  associativity : c'.associativity = c.associativity
  view : ∀ id, Valid id → other id → ∀ vp, c'.view vp id = c.view vp id
  listed : ∀ id, Valid id → other id → c'.listed id = c.listed id

/-- The ids stay in their places, except at one position perhaps. -/
def Points (moved : Nat → Nat → Nat → Prop) : Prop :=
  ∀ vp i j, ¬ moved vp i j → (c'.slot vp i j).id = (c.slot vp i j).id

/-- The accesses that the queues have counted. -/
def Counts : Prop := ∀ vp i, (c'.queue vp i).count = (c.queue vp i).count

end SSAC

section

variable {c c' : SSAC} {vp vp' i i' j j' k n : Nat} {q : HashQueues}
  {e e' : CacheEntrySimple} {d d' : DirEntry} {id id' : CacheObjectIdSimple}
  {other : CacheObjectIdSimple → Prop}

theorem SSAC.Keeps.home (h : SSAC.Keeps c c' other) : c'.home id = c.home id := by
  rw [SSAC.home, SSAC.home, h.numhashqs]

theorem SSAC.Keeps.trans {c'' : SSAC} (h : SSAC.Keeps c c' other) (h' : SSAC.Keeps c' c'' other) :
    SSAC.Keeps c c'' other where
  numproc := h'.numproc.trans h.numproc
  numhashqs := h'.numhashqs.trans h.numhashqs
  associativity := h'.associativity.trans h.associativity
  view id isValid apart vp := (h'.view id isValid apart vp).trans (h.view id isValid apart vp)
  listed id isValid apart := (h'.listed id isValid apart).trans (h.listed id isValid apart)

theorem SSAC.Keeps.mono {other' : CacheObjectIdSimple → Prop} (h : SSAC.Keeps c c' other)
    (weaker : ∀ id, other' id → other id) : SSAC.Keeps c c' other' :=
  { h with
    view := fun id isValid apart => h.view id isValid (weaker id apart)
    listed := fun id isValid apart => h.listed id isValid (weaker id apart) }

theorem slot_eq (here : (c.queue vp i).entries[j]? = some e) : c.slot vp i j = e := by
  rw [SSAC.slot, entryAt, List.getD_eq_getElem?_getD, here, Option.getD_some]

theorem slot_here (h : c.Tables) (vp i : Nat) (bound : j < c.associativity) :
    (c.queue vp i).entries[j]? = some (c.slot vp i j) := by
  rw [← h.length vp i] at bound
  rw [SSAC.slot, SSACSimpleSharedArray.entryAt_eq bound, List.getElem?_eq_getElem bound]

theorem direntry_eq (here : (c.line i)[k]? = some d) : c.direntry i k = d := by
  rw [SSAC.direntry, List.getD_eq_getElem?_getD, here, Option.getD_some]

theorem slot_setQueue (here : (c.queue vp i).entries[j]? = some e) :
    (c.setQueue vp i ⟨n, (c.queue vp i).entries.set j e'⟩).slot vp' i' j' =
      if vp' = vp ∧ i' = i ∧ j' = j then e' else c.slot vp' i' j' := by
  have bound : j < (c.queue vp i).entries.length := (List.getElem?_eq_some_iff.mp here).1
  rw [SSAC.slot, SSAC.slot, queue_setQueue]
  by_cases there : vp' = vp ∧ i' = i
  · obtain ⟨rfl, rfl⟩ := there
    by_cases at_ : j = j'
    · subst at_
      simp [entryAt, bound]
    · simp [entryAt, at_, Ne.symm at_]
  · rw [if_neg there, if_neg fun all => there ⟨all.1, all.2.1⟩]

theorem counts_setEntry : SSAC.Counts c (c.setEntry vp i j e) := by
  intro vp' i'
  rw [SSAC.setEntry, queue_setQueue]
  split_ifs with there
  · rw [there.1, there.2]
  · rfl

@[simp] theorem slot_setDir : (c.setDir i k d).slot vp' i' j' = c.slot vp' i' j' := by
  simp [SSAC.slot]

/-- An entry is the copy of its object. -/
theorem SSAC.Tables.copy_at (h : c.Tables) (inside : vp < c.numproc)
    (here : (c.queue vp i).entries[j]? = some e) (isValid : Valid e.id) :
    c.copy vp e.id = some e := by
  rw [SSAC.copy, if_pos inside, h.placed vp i e (List.mem_of_getElem? here) isValid]
  exact (h.distinct vp i).lookup_eq isValid here rfl

theorem SSAC.Tables.view_at (h : c.Tables) (inside : vp < c.numproc)
    (here : (c.queue vp i).entries[j]? = some e) (isValid : Valid e.id) :
    c.view vp e.id = some (contents e) := by
  rw [SSAC.view, h.copy_at inside here isValid, Option.map_some]

theorem copy_none (outside : ¬ vp < c.numproc) : c.copy vp id = none := if_neg outside

theorem inside_of_view (present : (c.view vp id).isSome) : vp < c.numproc := by
  by_contra outside
  rw [SSAC.view, copy_none outside] at present
  cases present

theorem copy_isSome : (c.copy vp id).isSome = (c.view vp id).isSome := by
  rw [SSAC.view, Option.isSome_map]

/-- A bit of an entry of the directory. -/
theorem SSAC.Exact.bit (h : c.Exact) (isValid : Valid id) (there : c.listed id = some d) :
    d.vpmask.getLsbD vp = (c.view vp id).isSome := by
  rw [← h.mask_eq id isValid vp, SSAC.mask, there, Option.elim_some]

theorem SSAC.Exact.nowhere (h : c.Exact) (isValid : Valid id) (missing : c.listed id = none) :
    c.view vp id = none := by
  have bit := h.mask_eq id isValid vp
  rw [SSAC.mask, missing, Option.elim_none, BitVec.getLsbD_zero] at bit
  exact Option.not_isSome_iff_eq_none.mp (by rw [← bit]; exact Bool.false_ne_true)

/-- An id with a copy is in the directory. -/
theorem SSAC.Exact.listed_of_view (h : c.Exact) (isValid : Valid id)
    {x : Coherence.Copy Nat} (view : c.view vp id = some x) : ∃ d, c.listed id = some d := by
  obtain missing | there := Option.eq_none_or_eq_some (c.listed id)
  · rw [h.nowhere isValid missing] at view
    cases view
  · exact there

/-- The directory stays exact when the same processors have copies and are listed. -/
theorem SSAC.Exact.of_same (h : c.Exact) (tables : c'.Tables) (numproc : c'.numproc = c.numproc)
    (views : ∀ id, Valid id → ∀ vp, (c'.view vp id).isSome = (c.view vp id).isSome)
    (masks : ∀ id, Valid id → (c'.listed id).map DirEntry.vpmask =
      (c.listed id).map DirEntry.vpmask) : c'.Exact where
  toTables := tables
  small := numproc ▸ h.small
  mask_eq id isValid vp := by
    have same : c'.mask id = c.mask id := by
      have := masks id isValid
      rw [SSAC.mask, SSAC.mask]
      cases there' : c'.listed id <;> cases there : c.listed id <;> simp_all
    rw [same, views id isValid vp, h.mask_eq id isValid vp]
  shared id d isValid there := by
    have same := masks id isValid
    rw [there, Option.map_some, eq_comm, Option.map_eq_some_iff] at same
    obtain ⟨b, before, equal⟩ := same
    rw [← equal]
    exact h.shared id b isValid before

/-! ### One entry of a queue changes and keeps its id -/

section

variable (h : c.Exact) (inside : vp < c.numproc)
  (here : (c.queue vp i).entries[j]? = some e) (same : e'.id = e.id)

include here same

theorem points_same : SSAC.Points c (c.setQueue vp i ⟨n, (c.queue vp i).entries.set j e'⟩)
    fun _ _ _ => False := by
  intro vp' i' j' _
  rw [slot_setQueue here]
  split_ifs with at_
  · obtain ⟨rfl, rfl, rfl⟩ := at_
    rw [slot_eq here, same]
  · rfl

include h inside

theorem view_same (isValid : Valid id) :
    (c.setQueue vp i ⟨n, (c.queue vp i).entries.set j e'⟩).view vp' id =
      if vp' = vp ∧ e.id = id then some (contents e') else c.view vp' id := by
  rw [h.view_setQueue here (fun _ => .inl same) inside isValid, same]
  split_ifs <;> rfl

theorem exact_same : (c.setQueue vp i ⟨n, (c.queue vp i).entries.set j e'⟩).Exact := by
  refine h.of_same (h.setQueue here fun _ => .inl same) rfl (fun id isValid vp' => ?_)
    fun id _ => ?_
  · rw [view_same h inside here same isValid]
    split_ifs with at_
    · obtain ⟨rfl, rfl⟩ := at_
      rw [h.view_at inside here isValid]
      rfl
    · rfl
  · rw [listed_setQueue]

end

/-- Counting an access changes nothing else. -/
theorem touch_spec (h : c.Exact) (inside : vp < c.numproc)
    (here : (c.queue vp i).entries[j]? = some e) (done : touch c vp i j = some c') :
    c'.Exact ∧ SSAC.Keeps c c' (fun _ => True) ∧ SSAC.Points c c' fun _ _ _ => False := by
  rw [touch] at done
  split_ifs at done
  rw [Option.some.injEq] at done
  subst done
  have same : ({ c.slot vp i j with
      lastused := ((c.queue vp i).count + 1) % 2 ^ 64 } : CacheEntrySimple).id = e.id := by
    rw [slot_eq here]
  refine ⟨exact_same h inside here same, ⟨rfl, rfl, rfl, fun id isValid _ vp' => ?_, ?_⟩,
    points_same here same⟩
  · rw [view_same h inside here same isValid]
    split_ifs with at_
    · obtain ⟨rfl, rfl⟩ := at_
      rw [h.view_at inside here isValid, slot_eq here]
      rfl
    · rfl
  · intro id _ _
    rw [listed_setQueue]

/-! ### All copies of an object change -/

section

variable {f : CacheEntrySimple → CacheEntrySimple}

/-- The loop over the processors changes the copies there and nothing else. -/
theorem onCopies_spec (vps : List Nat) (keeps : ∀ e, (f e).id = e.id) (isValid : Valid id)
    (h : c.Tables) (nodup : vps.Nodup) (there : ∀ vp ∈ vps, (c.copy vp id).isSome) :
    ∃ c', onCopies f id vps c = some c' ∧ c'.Tables ∧
      SSAC.Keeps c c' (· ≠ id) ∧ SSAC.Points c c' (fun _ _ _ => False) ∧
      (∀ vp, c'.copy vp id = if vp ∈ vps then (c.copy vp id).map f else c.copy vp id) ∧
      (∀ id, c'.listed id = c.listed id) ∧ (∀ i, c'.line i = c.line i) ∧ SSAC.Counts c c' := by
  induction vps generalizing c with
  | nil =>
      exact ⟨c, rfl, h, ⟨rfl, rfl, rfl, fun _ _ _ _ => rfl, fun _ _ _ => rfl⟩,
        fun _ _ _ _ => rfl, fun _ => by simp, fun _ => rfl, fun _ => rfl, fun _ _ => rfl⟩
  | cons vp vps ih =>
      obtain ⟨first, rest⟩ := List.forall_mem_cons.mp there
      obtain ⟨new, nodup⟩ := List.nodup_cons.mp nodup
      obtain ⟨e, copy⟩ := Option.isSome_iff_exists.mp first
      obtain ⟨inside, j, found, here⟩ := search_of_copy copy
      have same : (f (c.slot vp (c.home id) j)).id = e.id := by rw [slot_eq here, keeps]
      have idEq : e.id = id := by
        have := (search_eq_some found).2
        rwa [← slot_eq here]
      -- The cache after the change of the first copy.
      let m := c.setEntry vp (c.home id) j (f (c.slot vp (c.home id) j))
      have tables : m.Tables := h.setQueue here fun _ => .inl same
      have copies : ∀ vp' id', Valid id' → m.copy vp' id' =
          if vp' = vp ∧ id' = id then some (f e) else c.copy vp' id' := fun vp' id' valid' => by
        refine (h.copy_setQueue here (fun _ => .inl same) inside valid').trans ?_
        rw [same, slot_eq here, idEq]
        simp only [eq_comm (a := id)]
        split_ifs <;> rfl
      obtain ⟨c', run, tables', keep, points, copies', listed, line, counts⟩ := ih tables nodup
        fun vp' member => by
          rw [copies vp' id isValid]
          split_ifs
          · rfl
          · exact rest vp' member
      refine ⟨c', ?_, tables', ⟨keep.numproc, keep.numhashqs, keep.associativity, ?_, ?_⟩,
        ?_, ?_, ?_, ?_, fun vp' i' => (counts vp' i').trans (counts_setEntry vp' i')⟩
      · rw [onCopies, found]
        exact run
      · intro id' valid' apart vp'
        rw [keep.view id' valid' apart vp', SSAC.view, copies vp' id' valid', SSAC.view]
        simp [apart]
      · intro id' valid' apart
        rw [keep.listed id' valid' apart]
        exact listed_setQueue
      · intro vp' i' j' _
        rw [points vp' i' j' not_false]
        exact points_same here same vp' i' j' not_false
      · intro vp'
        rw [copies' vp', copies vp' id isValid]
        by_cases at_ : vp' = vp
        · subst at_
          simp [new, copy]
        · simp [at_]
      · intro id'
        rw [listed, ← listed_setQueue (c := c)]
        rfl
      · intro i
        rw [line]
        exact line_setQueue

/-- The processors in a mask without the calling one. -/
theorem mem_others (inside : vp < 64) :
    vp' ∈ others d vp ↔ d.vpmask.getLsbD vp' = true ∧ vp' ≠ vp := by
  rw [others, Bits.mem_set, BitVec.getLsbD_and, BitVec.getLsbD_not,
    Bits.getLsbD_one_shiftLeft inside]
  by_cases bit : d.vpmask.getLsbD vp'
  · have := BitVec.lt_of_getLsbD bit
    simp [bit, this]
  · simp [bit]

/-- `setbusyonallcopiesindir` and `updateandclearbusyonallcopiesindir`, with what they do to the
other copies and to the local one. -/
def forCopies (c : SSAC) (f g : CacheEntrySimple → CacheEntrySimple) (busy : Bool)
    (vp i k q j : Nat) : Option SSAC :=
  (onCopies f (c.direntry i k).id (others (c.direntry i k) vp) c).map fun c' =>
    (c'.setEntry vp q j (g (c'.slot vp q j))).setDir i k { c.direntry i k with busy }

/-- The loop does the same to all copies and marks the entry of the directory. -/
theorem forCopies_spec {g : CacheEntrySimple → CacheEntrySimple} (busy : Bool)
    {F : Coherence.Copy Nat → Coherence.Copy Nat} (h : c.Exact) (isValid : Valid id)
    (inside : vp < c.numproc) (found : lookupid id (c.line (c.home id)) = some k)
    (here : (c.queue vp (c.home id)).entries[j]? = some e) (idEq : e.id = id)
    (keeps : ∀ e, (f e).id = e.id) (acts : ∀ e, contents (f e) = F (contents e))
    (keeps' : (g e).id = e.id) (acts' : contents (g e) = F (contents e)) :
    ∃ c', forCopies c f g busy vp (c.home id) k (c.home id) j = some c' ∧ c'.Exact ∧
      SSAC.Keeps c c' (· ≠ id) ∧ SSAC.Points c c' (fun _ _ _ => False) ∧
      (∀ vp', c'.view vp' id = (c.view vp' id).map F) ∧
      c'.listed id = (c.listed id).map (fun d => { d with busy }) ∧ SSAC.Counts c c' := by
  obtain ⟨atLine, idLine⟩ := lookupid_eq_some found
  have listed := listed_of_lookupid h.toTables isValid found
  have small : vp < 64 := by have := h.small; omega
  subst idEq
  have copy : c.copy vp e.id = some e := h.copy_at inside here isValid
  obtain ⟨m, run, tables, keep, points, copies, listed', line, counts⟩ :=
    onCopies_spec (others (c.direntry (c.home e.id) k) vp) keeps isValid h.toTables
      Bits.set_nodup fun vp' member => by
        rw [copy_isSome, ← h.bit isValid listed]
        exact ((mem_others small).mp member).1
  have numproc := keep.numproc
  -- The local entry is not among the others.
  have bound : j < c.associativity := by
    rw [← h.length vp (c.home e.id)]
    exact (List.getElem?_eq_some_iff.mp here).1
  have here' : (m.queue vp (c.home e.id)).entries[j]? = some e := by
    have atSlot := slot_here tables vp (c.home e.id) (keep.associativity ▸ bound)
    have sameId : (m.slot vp (c.home e.id) j).id = e.id := by
      rw [points vp _ j not_false, slot_eq here]
    have copy' := tables.copy_at (numproc.symm ▸ inside) atSlot (sameId.symm ▸ isValid)
    rw [sameId, copies vp, if_neg fun member => ((mem_others small).mp member).2 rfl, copy,
      Option.some.injEq] at copy'
    rw [atSlot, ← copy']
  let l := m.setEntry vp (c.home e.id) j (g (m.slot vp (c.home e.id) j))
  have sameG : (g (m.slot vp (c.home e.id) j)).id = e.id := by rw [slot_eq here', keeps']
  have tables' : l.Tables := tables.setQueue here' fun _ => .inl sameG
  have atLine' : (l.line (c.home e.id))[k]? = some (c.direntry (c.home e.id) k) := by
    rw [← atLine, ← line]
    exact congrArg (·[k]?) line_setQueue
  have fits : FitsLine l (c.home e.id) (c.direntry (c.home e.id) k)
      { c.direntry (c.home e.id) k with busy } :=
    ⟨fun _ => .inl rfl, fun free => absurd (idLine.symm ▸ isValid) free⟩
  refine ⟨l.setDir (c.home e.id) k { c.direntry (c.home e.id) k with busy }, ?_, ?_⟩
  · rw [forCopies, idLine, run]
    rfl
  have views : ∀ id' vp', Valid id' → (l.setDir (c.home e.id) k
      { c.direntry (c.home e.id) k with busy }).view vp' id' =
        if id' = e.id then (c.view vp' e.id).map F else c.view vp' id' := by
    intro id' vp' valid'
    rw [view_setDir]
    refine (tables.view_setQueue here' (fun _ => .inl sameG) (numproc.symm ▸ inside)
      valid').trans ?_
    rw [sameG, slot_eq here']
    by_cases same : id' = e.id
    · subst same
      by_cases at_ : vp' = vp
      · subst at_
        simp [SSAC.view, copy, acts']
      · have member : vp' ∈ others (c.direntry (c.home e.id) k) vp ↔
            (c.copy vp' e.id).isSome = true := by
          rw [mem_others small, h.bit isValid listed, copy_isSome]
          simp [at_]
        rw [SSAC.view, copies vp', SSAC.view]
        cases there : c.copy vp' e.id <;> simp [at_, member, there, acts]
    · simp [Ne.symm same, same, keep.view id' valid' same vp']
  have listings : ∀ id', Valid id' → (l.setDir (c.home e.id) k
      { c.direntry (c.home e.id) k with busy }).listed id' =
        if id' = e.id then some { c.direntry (c.home e.id) k with busy } else c.listed id' := by
    intro id' valid'
    rw [tables'.listed_setDir atLine' fits valid', idLine]
    have before : l.listed id' = c.listed id' := listed_setQueue.trans (listed' id')
    simp only [before, eq_comm (a := e.id)]
    split_ifs <;> rfl
  refine ⟨h.of_same (tables'.setDir atLine' fits) numproc (fun id' valid' vp' => ?_)
    (fun id' valid' => ?_),
    ⟨numproc, keep.numhashqs, keep.associativity, fun id' valid' apart vp' => ?_,
      fun id' valid' apart => ?_⟩, fun vp' i' j' _ => ?_, fun vp' => ?_, ?_, fun vp' i' => ?_⟩
  · rw [views id' vp' valid']
    split_ifs with same
    · rw [same, Option.isSome_map]
    · rfl
  · rw [listings id' valid']
    split_ifs with same
    · rw [same, listed]
      rfl
    · rfl
  · rw [views id' vp' valid', if_neg apart]
  · rw [listings id' valid', if_neg apart]
  · rw [slot_setDir, ← points vp' i' j' not_false]
    exact points_same here' sameG vp' i' j' not_false
  · rw [views e.id vp' isValid, if_pos rfl]
  · rw [listings e.id isValid, if_pos rfl, listed]
    rfl
  · rw [queue_setDir, ← counts vp' i']
    exact counts_setEntry vp' i'

end

end

end EBBLib.SSACSimpleReplicatedArray
