import Mathlib.Logic.Relation
import EBBLib.SSAC.Slots

/-!
# The steps of a flush

`flush` takes the lock of a queue, scans for an entry to save, gives the lock back for the
call of `save` and starts the scan again. Here each of these is one step. The scan starts
again as often as there are entries to save: what is behind the first of them is left to
the next scan, and no scan stops twice at one entry.
-/

namespace EBBLib.SSACSimpleSharedArray

open CacheObjectIdSimple

/-- Where `flush` is. -/
inductive FlushPc where
  /-- At the head of the outer loop. -/
  | queue (i : Nat)
  /-- At the label `again`. -/
  | again (i : Nat)
  /-- At the head of the inner loop, with the lock. -/
  | scan (i j : Nat)
  /-- The entry is BUSY, and the lock is free. -/
  | save (i j : Nat)
  | clear (i j : Nat)
  | done
deriving DecidableEq, Repr

/-- The cache during a flush, and the arguments of the calls of `save` so far. -/
structure Flushing where
  pc : FlushPc
  cache : SSAC
  saves : List (CacheObjectIdSimple × Nat)

/-- One step of `flush`. There is none after its return. -/
def Flushing.step (s : Flushing) : Option Flushing :=
  match s.pc with
  | .queue i =>
      if i < s.cache.numhashqs then
        if (s.cache.hashqs i).entries.isNone then some { s with pc := .queue (i + 1) }
        else some { s with pc := .again i }
      else some { s with pc := .done }
  | .again i => some { s with pc := .scan i 0 }
  | .scan i j =>
      if j < s.cache.associativity then
        if flushes (s.cache.slot i j) then
          (modifyEntry s.cache i j fun e => { e with busy := true }).map fun cache =>
            { s with pc := .save i j, cache }
        else some { s with pc := .scan i (j + 1) }
      else some { s with pc := .queue (i + 1) }
  | .save i j =>
      let ce := s.cache.slot i j
      some { s with pc := .clear i j, saves := s.saves ++ [(ce.id, ce.data)] }
  | .clear i j =>
      (modifyEntry s.cache i j fun e => { e with dirty := false, busy := false }).map fun cache =>
        { s with pc := .again i, cache }
  | .done => none

/-- Some steps lead from one state to the other. -/
abbrev Flushing.Steps : Flushing → Flushing → Prop :=
  Relation.ReflTransGen fun s t => s.step = some t

/-- Each queue that is initialised has `_associativity` entries. -/
def SSAC.Sized (c : SSAC) : Prop :=
  ∀ q es, (c.hashqs q).entries = some es → es.length = c.associativity

/-- What a flush makes of an entry. -/
def cleaned (e : CacheEntrySimple) : CacheEntrySimple :=
  if flushes e then { e with dirty := false } else e

theorem cleaned_of_flushes {e : CacheEntrySimple} (flush : flushes e) :
    cleaned e = { e with dirty := false } := if_pos flush

theorem cleaned_of_not_flushes {e : CacheEntrySimple} (stays : flushes e = false) :
    cleaned e = e := if_neg (by rw [stays]; exact Bool.false_ne_true)

theorem idle_of_flushes {e : CacheEntrySimple} (flush : flushes e) : e.busy = false := by
  simp only [flushes, Bool.and_eq_true, Bool.not_eq_true'] at flush
  exact flush.1.1

/-- An entry is saved once at most. -/
@[simp] theorem flushes_cleaned (e : CacheEntrySimple) : flushes (cleaned e) = false := by
  cases flush : flushes e with
  | true =>
      rw [cleaned_of_flushes flush]
      simp [flushes]
  | false => rw [cleaned_of_not_flushes flush, flush]

/-- A flush that goes past an entry leaves nothing to save behind it. -/
theorem not_flushes_append_cleaned {pre : List CacheEntrySimple}
    (none : ∀ d ∈ pre, flushes d = false) (e : CacheEntrySimple) :
    ∀ d ∈ pre ++ [cleaned e], flushes d = false := by
  intro d mem
  obtain before | here := List.mem_append.mp mem
  · exact none d before
  · rw [List.mem_singleton.mp here, flushes_cleaned]

/-- The calls of `save` for some entries, in their order. -/
def savesOf (es : List CacheEntrySimple) : List (CacheObjectIdSimple × Nat) :=
  (es.filter flushes).map fun e => (e.id, e.data)

/-- The cache with the queues before `i` flushed. -/
def SSAC.flushedTo (c : SSAC) (i : Nat) : SSAC :=
  { c with hashqs := fun q =>
      if q < i then { c.hashqs q with entries := (c.hashqs q).entries.map (·.map cleaned) }
      else c.hashqs q }

theorem modifyEntry_middle {c : SSAC} {i : Nat} {pre post : List CacheEntrySimple}
    {e : CacheEntrySimple} {f : CacheEntrySimple → CacheEntrySimple}
    (entries : (c.hashqs i).entries = some (pre ++ e :: post)) :
    modifyEntry c i pre.length f =
      some (c.setQueue i { c.hashqs i with entries := some (pre ++ f e :: post) }) := by
  simp [modifyEntry, entries]

namespace Flushing

section Queue

variable {c : SSAC} {saves : List (CacheObjectIdSimple × Nat)} {i : Nat}
  {pre post : List CacheEntrySimple} {e : CacheEntrySimple}

/-- The scan passes the entries that are not to be saved. -/
theorem skip (pre es post : List CacheEntrySimple)
    (entries : (c.hashqs i).entries = some (pre ++ es ++ post))
    (size : (pre ++ es ++ post).length = c.associativity) (none : ∀ d ∈ es, flushes d = false) :
    Steps ⟨.scan i pre.length, c, saves⟩ ⟨.scan i (pre ++ es).length, c, saves⟩ := by
  induction es generalizing pre with
  | nil => simpa using Relation.ReflTransGen.refl
  | cons d es ih =>
      have here : c.slot i pre.length = d := by
        rw [slot_eq entries, List.append_assoc, List.cons_append, entryAt_middle]
      have bound : pre.length < c.associativity := by
        rw [← size]
        simp
      have moved : step ⟨.scan i pre.length, c, saves⟩ =
          some ⟨.scan i (pre ++ [d]).length, c, saves⟩ := by
        simp [step, bound, here, none d (by simp)]
      have split : pre ++ d :: es = pre ++ [d] ++ es := by simp
      rw [split] at entries size ⊢
      exact .head moved (ih (pre ++ [d]) entries size fun d mem => none d (by simp [mem]))

/-- One scan up to the first entry to be saved, and the call of `save` for it. -/
theorem round (entries : (c.hashqs i).entries = some (pre ++ e :: post))
    (size : (pre ++ e :: post).length = c.associativity) (none : ∀ d ∈ pre, flushes d = false)
    (flush : flushes e) :
    Steps ⟨.again i, c, saves⟩
      ⟨.again i, c.setQueue i { c.hashqs i with entries := some (pre ++ cleaned e :: post) },
        saves ++ [(e.id, e.data)]⟩ := by
  have scanned : Steps ⟨.scan i 0, c, saves⟩ ⟨.scan i pre.length, c, saves⟩ :=
    skip [] pre (e :: post) (by simpa using entries) (by simpa using size) none
  have bound : pre.length < c.associativity := by
    rw [← size]
    simp
  have here : c.slot i pre.length = e := by
    rw [slot_eq entries, entryAt_middle]
  let held := c.setQueue i
    { c.hashqs i with entries := some (pre ++ { e with busy := true } :: post) }
  have entries' : (held.hashqs i).entries = some (pre ++ { e with busy := true } :: post) := by
    simp [held, SSAC.setQueue]
  have there : held.slot i pre.length = { e with busy := true } := by
    rw [slot_eq entries', entryAt_middle]
  have hold : step ⟨.scan i pre.length, c, saves⟩ = some ⟨.save i pre.length, held, saves⟩ := by
    simp [step, bound, here, flush, modifyEntry_middle entries, held]
  have save : step ⟨.save i pre.length, held, saves⟩ =
      some ⟨.clear i pre.length, held, saves ++ [(e.id, e.data)]⟩ := by
    simp [step, there]
  have clear : step ⟨.clear i pre.length, held, saves ++ [(e.id, e.data)]⟩ =
      some ⟨.again i, c.setQueue i { c.hashqs i with entries := some (pre ++ cleaned e :: post) },
        saves ++ [(e.id, e.data)]⟩ := by
    have cleared : cleaned e = { e with dirty := false, busy := false } := by
      rw [cleaned_of_flushes flush, ← idle_of_flushes flush]
    simp only [step, modifyEntry_middle entries', Option.map_some, cleared]
    simp [held, SSAC.setQueue]
  exact .head (by rfl) (scanned.trans (.head hold (.head save (.head clear .refl))))

/-- The scans of a queue whose entries `pre` need not be saved. Each of them deals with one
entry of the rest. -/
theorem queue_steps (pre rest : List CacheEntrySimple)
    (entries : (c.hashqs i).entries = some (pre ++ rest))
    (size : (pre ++ rest).length = c.associativity) (none : ∀ d ∈ pre, flushes d = false) :
    Steps ⟨.again i, c, saves⟩
      ⟨.queue (i + 1), c.setQueue i
        { c.hashqs i with entries := some (pre ++ rest.map cleaned) }, saves ++ savesOf rest⟩ := by
  induction rest generalizing pre c saves with
  | nil =>
      have scanned : Steps ⟨.scan i 0, c, saves⟩ ⟨.scan i pre.length, c, saves⟩ :=
        skip [] pre [] (by simpa using entries) (by simpa using size) none
      have same : c.setQueue i { c.hashqs i with entries := some (pre ++ [].map cleaned) } = c := by
        simp only [List.map_nil, ← entries]
        simp [SSAC.setQueue]
      have stop : step ⟨.scan i pre.length, c, saves⟩ = some ⟨.queue (i + 1), c, saves⟩ := by
        simp [step, ← size]
      rw [same]
      have last := scanned.trans (.head stop .refl)
      simpa [savesOf] using Relation.ReflTransGen.head (by rfl) last
  | cons e rest ih =>
      have split :
          pre ++ (e :: rest).map cleaned = pre ++ [cleaned e] ++ rest.map cleaned := by simp
      have clean := not_flushes_append_cleaned none e
      rw [split]
      cases flush : flushes e with
      | true =>
          let d := c.setQueue i { c.hashqs i with entries := some (pre ++ cleaned e :: rest) }
          have first : Steps ⟨.again i, c, saves⟩ ⟨.again i, d, saves ++ [(e.id, e.data)]⟩ :=
            round entries size none flush
          have later : Steps ⟨.again i, d, saves ++ [(e.id, e.data)]⟩ _ :=
            ih (pre ++ [cleaned e]) (by simp [d, SSAC.setQueue])
              (by simpa [d, SSAC.setQueue] using size) clean
          simpa [d, SSAC.setQueue, savesOf, flush] using first.trans later
      | false =>
          rw [cleaned_of_not_flushes flush] at clean ⊢
          have later : Steps ⟨.again i, c, saves⟩ _ :=
            ih (pre ++ [e]) (by simpa using entries) (by simpa using size) clean
          simpa [savesOf, flush] using later

end Queue

end Flushing

/-- The calls of `save` for the queues before `i`. -/
def SSAC.savesTo (c : SSAC) (i : Nat) : List (CacheObjectIdSimple × Nat) :=
  (List.range i).flatMap fun q => savesOf ((c.hashqs q).entries.getD [])

section

variable {c : SSAC} {i : Nat}

@[simp] theorem flushedTo_zero (c : SSAC) : c.flushedTo 0 = c := by
  simp [SSAC.flushedTo]

theorem flushedTo_hashqs (c : SSAC) (i : Nat) : (c.flushedTo i).hashqs i = c.hashqs i := by
  simp [SSAC.flushedTo]

theorem flushedTo_succ (c : SSAC) (i : Nat) :
    c.flushedTo (i + 1) = (c.flushedTo i).setQueue i
      { c.hashqs i with entries := (c.hashqs i).entries.map (·.map cleaned) } := by
  simp only [SSAC.flushedTo, SSAC.setQueue, SSAC.mk.injEq, true_and]
  funext q
  obtain before | rfl | after := Nat.lt_trichotomy q i
  · simp [before, Nat.lt_succ_of_lt before, Nat.ne_of_lt before]
  · simp
  · simp [Nat.not_lt_of_lt after, Nat.not_lt.mpr (Nat.succ_le_of_lt after), Nat.ne_of_gt after]

theorem savesTo_succ (c : SSAC) (i : Nat) :
    c.savesTo (i + 1) = c.savesTo i ++ savesOf ((c.hashqs i).entries.getD []) := by
  simp [SSAC.savesTo, List.range_succ]

namespace Flushing

/-- One turn of the outer loop. -/
theorem turn (sized : c.Sized) (more : i < c.numhashqs) :
    Steps ⟨.queue i, c.flushedTo i, c.savesTo i⟩
      ⟨.queue (i + 1), c.flushedTo (i + 1), c.savesTo (i + 1)⟩ := by
  have here := flushedTo_hashqs c i
  cases entries : (c.hashqs i).entries with
  | none =>
      have same : c.flushedTo (i + 1) = c.flushedTo i := by
        rw [flushedTo_succ, entries, Option.map_none, ← entries, ← here]
        simp [SSAC.setQueue]
      rw [same, savesTo_succ, entries]
      apply Relation.ReflTransGen.single
      simp [step, SSAC.flushedTo, more, entries, savesOf]
  | some es =>
      have entries' : ((c.flushedTo i).hashqs i).entries = some ([] ++ es) := by
        rw [here, entries, List.nil_append]
      have enter : step ⟨.queue i, c.flushedTo i, c.savesTo i⟩ =
          some ⟨.again i, c.flushedTo i, c.savesTo i⟩ := by
        simp [step, SSAC.flushedTo, more, entries]
      have flushed : Steps ⟨.again i, c.flushedTo i, c.savesTo i⟩ _ :=
        queue_steps [] es entries' (sized i es entries) (by simp)
      rw [flushedTo_succ, savesTo_succ, entries]
      rw [here] at flushed
      exact .head enter flushed

/-- The whole flush. -/
theorem steps (c : SSAC) (sized : c.Sized) :
    Steps ⟨.queue 0, c, []⟩ ⟨.done, c.flushedTo c.numhashqs, c.savesTo c.numhashqs⟩ := by
  have turns : ∀ i ≤ c.numhashqs,
      Steps ⟨.queue 0, c, []⟩ ⟨.queue i, c.flushedTo i, c.savesTo i⟩ := by
    intro i
    induction i with
    | zero =>
        intro _
        rw [flushedTo_zero]
        exact .refl
    | succ i ih => exact fun more => (ih (Nat.le_of_lt more)).trans (turn sized more)
  refine (turns _ (Nat.le_refl _)).tail ?_
  simp [step, SSAC.flushedTo]

end Flushing

/-! ### The flush as one operation -/

/-- What the calls of `save` leave in the store. -/
def saveAll (store : Store) (saves : List (CacheObjectIdSimple × Nat)) : Store :=
  saves.foldl (fun store save => Function.update store save.1 save.2) store

theorem findIdx?_flushes {pre post : List CacheEntrySimple} {e : CacheEntrySimple}
    (none : ∀ d ∈ pre, flushes d = false) (flush : flushes e) :
    (pre ++ e :: post).findIdx? flushes = some pre.length := by
  rw [List.findIdx?_append, List.findIdx?_eq_none_iff.mpr none]
  simp [List.findIdx?_cons, flush]

theorem flushQueue_eq (fuel : Nat) (pre rest : List CacheEntrySimple) (store : Store)
    (none : ∀ d ∈ pre, flushes d = false) (enough : (savesOf rest).length < fuel) :
    flushQueue fuel (pre ++ rest) store =
      some (pre ++ rest.map cleaned, saveAll store (savesOf rest)) := by
  induction rest generalizing fuel pre store with
  | nil =>
      obtain ⟨fuel, rfl⟩ := Nat.exists_eq_add_one.mpr (Nat.zero_lt_of_lt enough)
      simp [flushQueue, List.findIdx?_eq_none_iff.mpr none, savesOf, saveAll]
  | cons e rest ih =>
      have clean := not_flushes_append_cleaned none e
      cases flush : flushes e with
      | true =>
          obtain ⟨fuel, rfl⟩ := Nat.exists_eq_add_one.mpr (Nat.zero_lt_of_lt enough)
          have fewer : (savesOf rest).length < fuel := by simpa [savesOf, flush] using enough
          have later := ih fuel (pre ++ [cleaned e]) (Function.update store e.id e.data) clean fewer
          rw [flushQueue, findIdx?_flushes none flush]
          simpa [cleaned_of_flushes flush, idle_of_flushes flush, savesOf, flush, saveAll]
            using later
      | false =>
          rw [cleaned_of_not_flushes flush] at clean
          have later := ih fuel (pre ++ [e]) store clean (by simpa [savesOf, flush] using enough)
          simpa [savesOf, flush, cleaned_of_not_flushes flush] using later

theorem flushAt_eq (c : SSAC) (i : Nat) (store : Store) :
    flushAt (c.flushedTo i) store i =
      some (c.flushedTo (i + 1), saveAll store (savesOf ((c.hashqs i).entries.getD []))) := by
  rw [flushAt, flushedTo_hashqs, flushedTo_succ]
  cases entries : (c.hashqs i).entries with
  | none =>
      have same : (c.flushedTo i).setQueue i { c.hashqs i with entries := none } =
          c.flushedTo i := by
        rw [← entries, ← flushedTo_hashqs c i]
        simp [SSAC.setQueue]
      rw [Option.map_none, same]
      rfl
  | some es =>
      have fewer : (savesOf es).length < es.length + 1 := by
        rw [savesOf, List.length_map]
        exact Nat.lt_succ_of_le (List.length_filter_le flushes es)
      have run := flushQueue_eq (es.length + 1) [] es store (by simp) fewer
      simp only [List.nil_append] at run
      simp [run]

theorem flushFrom_eq (c : SSAC) (todo i : Nat) (store : Store) :
    flushFrom todo i (c.flushedTo i) (saveAll store (c.savesTo i)) =
      some (c.flushedTo (i + todo), saveAll store (c.savesTo (i + todo))) := by
  induction todo generalizing i with
  | zero => rfl
  | succ todo ih =>
      have saved : saveAll (saveAll store (c.savesTo i)) (savesOf ((c.hashqs i).entries.getD [])) =
          saveAll store (c.savesTo (i + 1)) := by
        rw [savesTo_succ, saveAll, saveAll, saveAll, List.foldl_append]
      have later := ih (i + 1)
      rw [Nat.add_right_comm, Nat.add_assoc] at later
      simpa [flushFrom, flushAt_eq, saved] using later

/-- The steps above end where `flush` does. -/
theorem flush_eq (c : SSAC) (store : Store) :
    flush c store = some (c.flushedTo c.numhashqs, saveAll store (c.savesTo c.numhashqs)) := by
  have run := flushFrom_eq c c.numhashqs 0 store
  rwa [flushedTo_zero, Nat.zero_add] at run

/-! ### What a flush does -/

/-- What a flush that makes `d` of the cache `c` should guarantee, with the calls of `save`. -/
structure Flushes (c d : SSAC) (saves : List (CacheObjectIdSimple × Nat)) : Prop where
  /-- One call for each entry that is valid, DIRTY and not BUSY, and no other. -/
  saves : saves = (List.range c.numhashqs).flatMap fun q =>
    (((c.hashqs q).entries.getD []).filter flushes).map fun e => (e.id, e.data)
  clean : ∀ q < c.numhashqs, ∀ j, valid (d.slot q j).id → (d.slot q j).busy = false →
    (d.slot q j).dirty = false
  busy : ∀ q j, (c.slot q j).busy → d.slot q j = c.slot q j
  /-- No entry that the flush has saved stays BUSY. -/
  released : ∀ q j, (d.slot q j).busy = (c.slot q j).busy
  kept : ∀ q j, (d.slot q j).id = (c.slot q j).id ∧ (d.slot q j).data = (c.slot q j).data ∧
    (d.slot q j).lastused = (c.slot q j).lastused
  counts : ∀ q, (d.hashqs q).count = (c.hashqs q).count
  initialised : ∀ q, (d.hashqs q).entries.isSome = (c.hashqs q).entries.isSome

theorem flushedTo_count (c : SSAC) (i q : Nat) :
    ((c.flushedTo i).hashqs q).count = (c.hashqs q).count := by
  simp only [SSAC.flushedTo]
  split <;> rfl

theorem flushedTo_entries {q : Nat} {es : List CacheEntrySimple}
    (entries : ((c.flushedTo i).hashqs q).entries = some es) :
    ∃ es', (c.hashqs q).entries = some es' ∧ (es = es' ∨ es = es'.map cleaned) := by
  simp only [SSAC.flushedTo] at entries
  split at entries
  · obtain ⟨es', old, rfl⟩ := Option.map_eq_some_iff.mp entries
    exact ⟨es', old, .inr rfl⟩
  · exact ⟨es, entries, .inl rfl⟩

theorem slot_flushedTo (c : SSAC) (i q j : Nat) :
    (c.flushedTo i).slot q j = if q < i then cleaned (c.slot q j) else c.slot q j := by
  by_cases before : q < i
  · simp only [SSAC.slot, SSAC.flushedTo, before, if_true]
    cases (c.hashqs q).entries with
    | none => rfl
    | some es =>
        simp only [Option.map_some, Option.getD_some, entryAt, List.getD_eq_getElem?_getD,
          List.getElem?_map]
        cases es[j]? <;> rfl
  · simp [SSAC.slot, SSAC.flushedTo, before]

theorem cleaned_fields (e : CacheEntrySimple) :
    (cleaned e).id = e.id ∧ (cleaned e).data = e.data ∧ (cleaned e).lastused = e.lastused ∧
      (cleaned e).busy = e.busy := by
  unfold cleaned
  split <;> exact ⟨rfl, rfl, rfl, rfl⟩

/-- A flush returns, from every state of the cache. -/
theorem flush_terminates (c : SSAC) (sized : c.Sized) :
    ∃ d saves, Flushing.Steps ⟨.queue 0, c, []⟩ ⟨.done, d, saves⟩ ∧ Flushes c d saves := by
  refine ⟨_, _, Flushing.steps c sized, rfl, ?_, ?_, ?_, ?_, ?_, ?_⟩
  · intro q more j isValid idle
    rw [slot_flushedTo, if_pos more] at isValid idle ⊢
    have stays := flushes_cleaned (c.slot q j)
    simpa [flushes, isValid, idle] using stays
  · intro q j busy
    have stays : flushes (c.slot q j) = false := by simp [flushes, busy]
    rw [slot_flushedTo, cleaned_of_not_flushes stays, ite_self]
  · intro q j
    rw [slot_flushedTo]
    split
    · exact (cleaned_fields (c.slot q j)).2.2.2
    · rfl
  · intro q j
    obtain ⟨id, data, lastused, _⟩ := cleaned_fields (c.slot q j)
    rw [slot_flushedTo]
    split
    · exact ⟨id, data, lastused⟩
    · exact ⟨rfl, rfl, rfl⟩
  · exact flushedTo_count c _
  · intro q
    simp only [SSAC.flushedTo]
    split
    · exact Option.isSome_map
    · rfl

/-- Two queues, of which one is not initialised. Of the three dirty entries one is BUSY and one
has no valid id. -/
theorem flush_terminates_sample : ∃ d saves, Flushing.Steps
    ⟨.queue 0, ⟨2, 3, fun q => if q = 1 then ⟨9, some [⟨3, true, true, 7, 30⟩,
      ⟨invalid, false, true, 0, 0⟩, ⟨5, false, true, 8, 50⟩]⟩ else .new⟩, []⟩
    ⟨.done, d, saves⟩ ∧ saves = [(5, 50)] := by
  obtain ⟨d, saves, steps, flushes⟩ := flush_terminates
    ⟨2, 3, fun q => if q = 1 then ⟨9, some [⟨3, true, true, 7, 30⟩,
      ⟨invalid, false, true, 0, 0⟩, ⟨5, false, true, 8, 50⟩]⟩ else .new⟩ (by
        intro q es entries
        by_cases here : q = 1
        · simp only [here, if_true, Option.some.injEq] at entries
          rw [← entries]
          rfl
        · simp [here, HashQueues.new] at entries)
  exact ⟨d, saves, steps, flushes.saves.trans (by decide)⟩

end

end EBBLib.SSACSimpleSharedArray
