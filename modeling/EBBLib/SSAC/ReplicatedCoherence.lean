import EBBLib.SSAC.ReplicatedClients
import EBBLib.SSAC.ReplicatedMisses

/-!
# The replicated cache is a map of registers

Every step of the clients makes moves of the directory protocol, of which a miss makes up to
three: it drops the copy of one object, makes one of another, and acquires it for a writer. So
what the clients are given and put back is a run of one register for each object, in which a
writer excludes all others and everybody is given the value that was put back last.
-/

namespace EBBLib.SSACSimpleReplicatedArray

open SSACSimpleSharedArray (CacheObjectIdSimple CacheEntrySimple GetType PutFlag Store entryAt
  flushes)
open SSACSimpleSharedArray.CacheObjectIdSimple
open SSACSimpleSharedArray.HashQueues (search lruentry)
open Coherence (Register Coherent registers)

/-- The queue and the position of the entry that a client holds. -/
def Pc.entry (c : SSAC) : Pc → Option (Nat × Nat)
  | .writing id j => some (c.home id, j)
  | .saving _ q j => some (q, j)
  | .clearing _ q j => some (q, j)
  | _ => none

/-- A client asks for a valid id, and the entry that it holds is still for its object. -/
def Pc.Sound (c : SSAC) (vp : Nat) : Pc → Prop
  | .getting id _ => Valid id
  | .missed id _ _ => Valid id
  | .writing id j => Valid id ∧ j < c.associativity ∧ (c.slot vp (c.home id) j).id = id
  | .saving id q j => Valid id ∧ c.home id = q ∧ j < c.associativity ∧ (c.slot vp q j).id = id
  | .clearing id q j => Valid id ∧ c.home id = q ∧ j < c.associativity ∧ (c.slot vp q j).id = id
  | _ => True

/-- The directory is exact and the clients hold what they think. -/
structure Held (on : Nat → Nat) (s : State) : Prop where
  exact : s.cache.Exact
  inside : ∀ c, on c < s.cache.numproc
  sound : ∀ c, (s.pc c).Sound s.cache (on c)

/-- The caches implement the registers. -/
structure Implements (on : Nat → Nat) (s : State) (r : CacheObjectIdSimple → Register Nat Nat) :
    Prop extends Held on s where
  coherent : ∀ id, Valid id → Coherent on (s.cell id) (r id)

section

variable {on : Nat → Nat} {s t : State} {r : CacheObjectIdSimple → Register Nat Nat}
  {c : Nat} {m m' : SSAC} {store store' : Store} {vp q i j k : Nat} {e : CacheEntrySimple}
  {id id' : CacheObjectIdSimple} {pc : Pc}

/-- The entry that a client holds is the copy of its processor. -/
theorem Held.copy (h : Held on s) (c : Nat) (id : CacheObjectIdSimple)
    (role : (s.pc c).role id ≠ .none) :
    ∃ j, (s.pc c).entry s.cache = some (s.cache.home id, j) ∧ Valid id ∧
      (s.cache.queue (on c) (s.cache.home id)).entries[j]? =
        some (s.cache.slot (on c) (s.cache.home id) j) ∧
      (s.cache.slot (on c) (s.cache.home id) j).id = id ∧
      (s.cell id).copies (on c) =
        some (contents (s.cache.slot (on c) (s.cache.home id) j)) := by
  have sound := h.sound c
  obtain ⟨j, entry, isValid, bound, same⟩ : ∃ j, (s.pc c).entry s.cache =
      some (s.cache.home id, j) ∧ Valid id ∧ j < s.cache.associativity ∧
        (s.cache.slot (on c) (s.cache.home id) j).id = id := by
    cases pc : s.pc c <;> rw [pc] at role sound <;> simp only [Pc.role, ne_eq, ite_eq_right_iff,
      reduceCtorEq, imp_false, not_not, not_true_eq_false] at role
    case writing id' j =>
      subst role
      exact ⟨j, rfl, sound.1, sound.2.1, sound.2.2⟩
    all_goals
      subst role
      obtain ⟨isValid, rfl, bound, same⟩ := sound
      exact ⟨_, rfl, isValid, bound, same⟩
  have here := slot_here h.exact.toTables (on c) (s.cache.home id) bound
  refine ⟨j, entry, isValid, here, same, ?_⟩
  have view := h.exact.view_at (h.inside c) here (same.symm ▸ isValid)
  rwa [same] at view

/-- A client that holds an entry has a role. -/
theorem Held.role (h : Held on s) (entry : (s.pc c).entry s.cache = some (q, j)) :
    ∃ id, (s.pc c).role id ≠ .none ∧ s.cache.home id = q := by
  have sound := h.sound c
  cases pc : s.pc c <;> rw [pc] at entry sound <;> simp only [Pc.entry, reduceCtorEq,
    Option.some.injEq, Prod.mk.injEq] at entry
  case writing id l => exact ⟨id, by simp [Pc.role], entry.1⟩
  case saving id p l => exact ⟨id, by simp [Pc.role], sound.2.1.trans entry.1⟩
  case clearing id p l => exact ⟨id, by simp [Pc.role], sound.2.1.trans entry.1⟩

/-- The entry that a client holds is BUSY. -/
theorem Implements.busy_slot (h : Implements on s r)
    (entry : (s.pc c).entry s.cache = some (q, j)) : (s.cache.slot (on c) q j).busy = true := by
  obtain ⟨id, role, rfl⟩ := h.role entry
  obtain ⟨l, entry', isValid, _, _, copy⟩ := h.copy c id role
  rw [entry', Option.some.injEq, Prod.mk.injEq] at entry
  obtain ⟨_, rfl⟩ := entry
  have coherent := h.coherent id isValid
  have role : (s.cell id).role c ≠ .none := role
  cases at_ : (s.cell id).role c with
  | none => exact absurd at_ role
  | writing => exact coherent.locked (coherent.busy_of_writer at_) (on c) _ copy
  | saving =>
      obtain ⟨_, x, there, busy, _⟩ := coherent.marks c (.inl at_)
      rw [copy, Option.some.injEq] at there
      subst there
      exact busy
  | clearing =>
      obtain ⟨_, x, there, busy, _⟩ := coherent.marks c (.inr at_)
      rw [copy, Option.some.injEq] at there
      subst there
      exact busy

/-- What a client holds stays where it is. -/
theorem Pc.Sound.keep (sound : pc.Sound m vp) (numhashqs : m'.numhashqs = m.numhashqs)
    (associativity : m'.associativity = m.associativity)
    (ids : ∀ q j, pc.entry m = some (q, j) → (m'.slot vp q j).id = (m.slot vp q j).id) :
    pc.Sound m' vp := by
  have home : ∀ id, m'.home id = m.home id := fun id => by rw [SSAC.home, SSAC.home, numhashqs]
  cases pc with
  | idle => trivial
  | getting _ _ => exact sound
  | missed _ _ _ => exact sound
  | flushing _ => trivial
  | writing id l =>
      obtain ⟨isValid, bound, same⟩ := sound
      exact ⟨isValid, associativity ▸ bound, by rw [home, ids _ _ rfl, same]⟩
  | saving id p l =>
      obtain ⟨isValid, placed, bound, same⟩ := sound
      exact ⟨isValid, (home id).trans placed, associativity ▸ bound, by rw [ids _ _ rfl, same]⟩
  | clearing id p l =>
      obtain ⟨isValid, placed, bound, same⟩ := sound
      exact ⟨isValid, (home id).trans placed, associativity ▸ bound, by rw [ids _ _ rfl, same]⟩

/-! ### The moves -/

@[simp] theorem cell_copies : (s.cell id).copies vp = s.cache.view vp id := rfl

@[simp] theorem cell_store : (s.cell id).store = s.store id := rfl

@[simp] theorem cell_role : (s.cell id).role c = (s.pc c).role id := rfl

@[simp] theorem contents_filled {data : Nat} :
    contents (filled e id data) = ⟨data, false, false⟩ := rfl

theorem cell_eq (view : ∀ vp, t.cache.view vp id = s.cache.view vp id)
    (listed : t.cache.listed id = s.cache.listed id) (store : t.store id = s.store id)
    (role : ∀ c, (t.pc c).role id = (s.pc c).role id) : t.cell id = s.cell id := by
  simp only [State.cell, view, listed, store, role]

/-- A step that moves one object. -/
theorem Implements.move {event : Option (Coherence.Event Nat Nat)} (h : Implements on s r)
    (held : Held on t) (isValid : Valid id)
    (others : ∀ id', Valid id' → id' ≠ id → t.cell id' = s.cell id')
    (moved : Coherence.Step on (s.cell id) event (t.cell id)) :
    ∃ r', registers.exec r (event.toList.map (id, ·)) = some r' ∧ Implements on t r' := by
  obtain ⟨r', answered, coherent⟩ := Coherence.registers_move h.coherent isValid others moved
  exact ⟨r', answered, held, coherent⟩

/-- The same without an event. -/
theorem Implements.silent (h : Implements on s r) (held : Held on t) (isValid : Valid id)
    (others : ∀ id', Valid id' → id' ≠ id → t.cell id' = s.cell id')
    (moved : Coherence.Step on (s.cell id) none (t.cell id)) : Implements on t r := by
  obtain ⟨r', answered, implements⟩ := h.move held isValid others moved
  obtain rfl : r = r' := Option.some.inj answered
  exact implements

/-- A step that moves nothing. -/
theorem Implements.same (h : Implements on s r) (held : Held on t)
    (cells : ∀ id, Valid id → t.cell id = s.cell id) : Implements on t r :=
  ⟨held, fun id isValid => cells id isValid ▸ h.coherent id isValid⟩

/-- No client holds an entry that is not BUSY. -/
theorem Implements.not_held (h : Implements on s r) (idle : (s.cache.slot vp q j).busy = false)
    (entry : (s.pc c).entry s.cache = some (i, k)) : ¬ (on c = vp ∧ i = q ∧ k = j) := by
  rintro ⟨rfl, rfl, rfl⟩
  rw [h.busy_slot entry] at idle
  cases idle

/-- Clients that do not move hold what they held when the ids that they point to stay. -/
theorem Implements.held (h : Implements on s r) {other : CacheObjectIdSimple → Prop}
    {moved : Nat → Nat → Nat → Prop} (exact : m'.Exact) (keeps : SSAC.Keeps s.cache m' other)
    (points : SSAC.Points s.cache m' moved)
    (away : ∀ c i j, (s.pc c).entry s.cache = some (i, j) → ¬ moved (on c) i j) :
    Held on { s with cache := m', store := store' } where
  exact := exact
  inside c := keeps.numproc ▸ h.inside c
  sound c := (h.sound c).keep keeps.numhashqs keeps.associativity fun i j entry =>
    points (on c) i j (away c i j entry)

/-- Dropping a copy that is not BUSY. -/
theorem Implements.evict (h : Implements on s r) (inside : vp < s.cache.numproc)
    (here : (s.cache.queue vp i).entries[j]? = some e) (idle : e.busy = false)
    (isValid : Valid e.id) (evicts : Evicts s.cache s.store vp i j e m' store') :
    Implements on { s with cache := m', store := store' } r := by
  have view := h.exact.view_at inside here isValid
  have slot : (s.cache.slot vp i j).busy = false := by rw [slot_eq here, idle]
  have held : Held on { s with cache := m', store := store' } :=
    h.held evicts.exact evicts.keeps evicts.points fun c i' j' entry => h.not_held slot entry
  have free : (s.cell e.id).busy = false :=
    (h.coherent e.id isValid).free (x := contents e) view idle
  have store : ∀ id, id ≠ e.id → store' id = s.store id := by
    intro id apart
    obtain ⟨_, _, _, _, _, _, rfl⟩ | ⟨_, _, d, _, rfl⟩ := evicts.outcome
    · rfl
    · split_ifs
      · exact Function.update_of_ne apart ..
      · rfl
  refine h.silent held isValid (fun id valid' apart => cell_eq
    (fun vp => evicts.keeps.view id valid' apart vp) (evicts.keeps.listed id valid' apart)
    (store id apart) fun _ => rfl) ?_
  obtain ⟨vp', d, apart, present, listed, listed', rfl⟩ | ⟨last, listed', d, listed, rfl⟩ :=
    evicts.outcome
  · obtain ⟨y, there⟩ := Option.isSome_iff_exists.mp present
    have step : Coherence.Step on (s.cell e.id) none _ := .drop (x := contents e) view idle apart
      there
    convert step using 1
    refine Coherence.Cell.ext (funext fun v => ?_) ?_ ?_ rfl rfl
    · simpa using evicts.view v
    · simp [State.cell, listed, listed', dropped, DirEntry.removevp]
    · simp [State.cell, listed, listed', dropped, DirEntry.removevp, contents]
  · have step : Coherence.Step on (s.cell e.id) none _ := .dropLast (x := contents e) view idle last
    convert step using 1
    refine Coherence.Cell.ext (funext fun v => ?_) ?_ ?_ ?_ rfl
    · simpa using evicts.view v
    · simpa [State.cell, listed'] using free
    · simp [State.cell, listed']
    · simp only [State.cell, listed, Option.any_some, contents]
      split_ifs <;> simp

/-- Making a copy of an object in a free entry. -/
theorem Implements.gain (h : Implements on s r) {d : DirEntry} {data : Nat}
    (isValid : Valid id) (idle : (s.cache.slot vp (s.cache.home id) j).busy = false)
    (missing : s.cache.view vp id = none)
    (gains : Gains s.cache vp j id (filled e id data) d m')
    (source : (∃ vp' x b, s.cache.view vp' id = some x ∧ s.cache.listed id = some b ∧
        b.busy = false ∧ d = b.addvp vp ∧ data = x.data) ∨
      s.cache.listed id = none ∧ d.busy = false ∧ d.modified = false ∧ data = s.store id) :
    Implements on { s with cache := m' } r := by
  have held : Held on { s with cache := m' } :=
    h.held gains.exact gains.keeps gains.points fun c i' j' entry => h.not_held idle entry
  refine h.silent held isValid (fun id valid' apart => cell_eq
    (fun vp => gains.keeps.view id valid' apart vp) (gains.keeps.listed id valid' apart)
    rfl fun _ => rfl) ?_
  obtain ⟨vp', x, b, there, listed, free, rfl, rfl⟩ | ⟨unlisted, busy, modified, rfl⟩ := source
  · have step : Coherence.Step on (s.cell id) none _ := .fetch missing there
      (by simp [State.cell, listed, free])
    convert step using 1
    refine Coherence.Cell.ext (funext fun v => ?_) ?_ ?_ rfl rfl
    · simpa using gains.view v
    · simp [State.cell, listed, gains.listed, DirEntry.addvp]
    · simp [State.cell, listed, gains.listed, DirEntry.addvp]
  · have step : Coherence.Step on (s.cell id) none _ := .load (p := vp) fun v =>
      h.exact.nowhere isValid unlisted
    convert step using 1
    refine Coherence.Cell.ext (funext fun v => ?_) ?_ ?_ rfl rfl
    · simpa using gains.view v
    · simp [State.cell, unlisted, gains.listed, busy]
    · simp [State.cell, unlisted, gains.listed, modified]

/-! ### A section of `get` -/

theorem asks_cases {type : GetType} (asks : s.asks c = some (id, type)) :
    s.pc c = .getting id type ∨ ∃ direntry, s.pc c = .missed id type direntry := by
  unfold State.asks at asks
  split at asks
  · next at_ =>
      cases asks
      exact .inl at_
  · next at_ =>
      cases asks
      exact .inr ⟨_, at_⟩
  · cases asks

theorem role_of_asks {type : GetType} (asks : s.asks c = some (id, type)) :
    (s.pc c).role id' = .none := by
  obtain at_ | ⟨direntry, at_⟩ := asks_cases asks <;> rw [at_] <;> rfl

theorem Held.valid {type : GetType} (h : Held on s) (asks : s.asks c = some (id, type)) :
    Valid id := by
  have sound := h.sound c
  obtain at_ | ⟨direntry, at_⟩ := asks_cases asks <;> rw [at_] at sound <;> exact sound

/-- A client goes somewhere without a change of its role. -/
theorem Implements.goto (h : Implements on s r) (sound : pc.Sound s.cache (on c))
    (role : ∀ id, pc.role id = (s.pc c).role id) : Implements on (s.goto c pc) r := by
  refine h.same ⟨h.exact, h.inside, fun d => ?_⟩ fun id _ =>
    cell_eq (fun _ => rfl) rfl rfl fun d => ?_
  · by_cases same : d = c
    · subst same
      simpa [State.goto] using sound
    · simpa [State.goto, same] using h.sound d
  · by_cases same : d = c
    · subst same
      simpa [State.goto] using role id
    · simp [State.goto, same]

/-- A client is given an entry. -/
theorem Implements.hand {type : GetType} (h : Implements on s r)
    (asks : s.asks c = some (id, type))
    (here : (s.cache.queue (on c) (s.cache.home id)).entries[j]? = some e) (idEq : e.id = id)
    (idle : e.busy = false)
    (quiet : type = .getForWrite → ∀ p y, (s.cell id).copies p = some y → y.busy = true →
      (s.cell id).busy = true)
    (hands : Hands s.cache (on c) id type j e m') :
    ∃ r', registers.exec r [(id, given c e.data type)] = some r' ∧
      Implements on ({ s with cache := m' }.goto c (State.after id type (.entry j))) r' := by
  have isValid := h.toHeld.valid asks
  have view := h.exact.view_at (h.inside c) here (idEq.symm ▸ isValid)
  rw [idEq] at view
  have held : Held on { s with cache := m' } :=
    h.held hands.exact hands.keeps hands.points fun _ _ _ _ => not_false
  have bound : j < s.cache.associativity := by
    rw [← h.exact.length (on c) (s.cache.home id)]
    exact (List.getElem?_eq_some_iff.mp here).1
  obtain ⟨rfl, keeps⟩ | ⟨rfl, views, listed⟩ := hands.outcome
  · -- A reader.
    have same : Implements on { s with cache := m' } r := h.same held fun id isValid =>
      cell_eq (keeps.view id isValid trivial) (keeps.listed id isValid trivial) rfl fun _ => rfl
    have step : Coherence.Step on (s.cell id) (some (.read c e.data)) (s.cell id) :=
      .read (x := contents e) view idle
    obtain ⟨r', answered, implements⟩ := h.move h.toHeld isValid (fun _ _ _ => rfl) step
    refine ⟨r', answered, ?_⟩
    have implements' : Implements on { s with cache := m' } r' :=
      implements.same held fun id isValid =>
        cell_eq (keeps.view id isValid trivial) (keeps.listed id isValid trivial) rfl fun _ => rfl
    exact implements'.goto trivial fun id' => (role_of_asks asks).symm
  · -- A writer.
    let t : State := { s with cache := m' }.goto c (.writing id j)
    have held' : Held on t := by
      refine ⟨held.exact, held.inside, fun d => ?_⟩
      by_cases same : d = c
      · subst same
        have sameId : (m'.slot (on d) (m'.home id) j).id = id := by
          rw [hands.keeps.home, hands.points _ _ _ not_false, slot_eq here, idEq]
        have sound : Pc.Sound m' (on d) (.writing id j) :=
          ⟨isValid, hands.keeps.associativity ▸ bound, sameId⟩
        simpa only [t, State.goto, Function.update_self] using sound
      · simpa [t, State.goto, same] using held.sound d
    have others : ∀ id', Valid id' → id' ≠ id → t.cell id' = s.cell id' := by
      intro id' valid' apart
      refine cell_eq (hands.keeps.view id' valid' apart) (hands.keeps.listed id' valid' apart) rfl
        fun d => ?_
      by_cases same : d = c
      · subst same
        rw [role_of_asks asks]
        simp [t, State.goto, Pc.role, Ne.symm apart]
      · simp [t, State.goto, same]
    have step : Coherence.Step on (s.cell id) (some (.acquire c e.data)) _ :=
      .acquire (x := contents e) view idle (quiet rfl)
    have moved : Coherence.Step on (s.cell id) (some (.acquire c e.data)) (t.cell id) := by
      obtain ⟨b, there⟩ := h.exact.listed_of_view isValid view
      convert step using 1
      refine Coherence.Cell.ext (funext fun v => ?_) ?_ ?_ rfl (funext fun d => ?_)
      · exact views v
      · simp [t, State.goto, State.cell, listed, there]
      · simp [t, State.goto, State.cell, listed, there]
      · by_cases same : d = c
        · subst same
          simp [t, State.goto, State.cell, Pc.role]
        · simp [t, State.goto, State.cell, same]
    exact h.move held' isValid others moved

/-- A variable that still points to the entry for the object says what a search would say. -/
theorem Fresh.or_eq {direntry : Option Nat} (fresh : Fresh m id direntry) (tables : m.Tables)
    (isValid : Valid id) :
    direntry.or (lookupid id (m.line (m.home id))) = lookupid id (m.line (m.home id)) := by
  cases direntry with
  | none => rfl
  | some k =>
      have same : (m.direntry (m.home id) k).id = id := fresh k rfl
      by_cases bound : k < (m.line (m.home id)).length
      · have here := List.getElem?_eq_getElem bound
        rw [direntry_eq here] at same
        rw [lookupid_at tables isValid here same, Option.some_or]
      · rw [SSAC.direntry, List.getD_eq_getElem?_getD,
          List.getElem?_eq_none (Nat.le_of_not_lt bound)] at same
        exact absurd same (invalid_ne isValid)

/-- A client that asks is given the local entry for its object. -/
theorem Implements.hit {type : GetType} {direntry : Option Nat} (h : Implements on s r)
    (asks : s.asks c = some (id, type))
    (found : search id (s.cache.queue (on c) (s.cache.home id)).entries = some j)
    (idle : (s.cache.slot (on c) (s.cache.home id) j).busy = false)
    (quiet : type = .getForWrite → Quiet s.cache id)
    (fresh : type = .getForWrite → Fresh s.cache id direntry)
    (done : SSACSimpleReplicatedArray.hand s.cache (on c) id type j direntry = some m') :
    ∃ r', registers.exec r ((Got.entry j).events (on c) c id type m') = some r' ∧
      Implements on ({ s with cache := m' }.goto c (State.after id type (.entry j))) r' := by
  obtain ⟨here, idEq⟩ := search_eq_some found
  have isValid := h.toHeld.valid asks
  have hands := hand_spec h.exact (h.inside c) isValid here idEq
    (fun writes => (fresh writes).or_eq h.exact.toTables isValid) done
  rw [Got.events, hands.keeps.home, hands.data]
  refine h.hand asks here idEq idle (fun writes p y there busy => ?_) hands
  exact quiet writes p (inside_of_view (Option.isSome_iff_exists.mpr ⟨y, there⟩)) (by
    rw [show s.cache.view p id = some y from there]
    exact busy)

/-- The first part of a miss drops a copy at most. -/
theorem Implements.frees (h : Implements on s r) (inside : vp < s.cache.numproc)
    (frees : Frees s.cache s.store vp j id m' store') :
    Implements on { s with cache := m', store := store' } r := by
  obtain ⟨rfl, rfl⟩ | ⟨e, here, idle, used, evicts⟩ := frees.outcome
  · exact h
  · exact h.evict inside here idle used evicts

/-- The second part makes a copy of the object, which agrees with the others. -/
theorem Implements.copied (h : Implements on s r) (inside : vp < s.cache.numproc)
    (isValid : Valid id) (missing : s.cache.view vp id = none)
    (here : (s.cache.queue vp (s.cache.home id)).entries[j]? = some e) (free : ¬ Valid e.id)
    (idle : e.busy = false)
    (unlocked : ∀ d ∈ s.cache.listed id, d.busy = false)
    (done : fill s.cache s.store vp id j (lookupid id (s.cache.line (s.cache.home id))) = some m') :
    Implements on { s with cache := m' } r ∧ m'.home id = s.cache.home id ∧
      (∃ e', (m'.queue vp (s.cache.home id)).entries[j]? = some e' ∧ e'.id = id ∧
        e'.busy = false) ∧
      (lookupid id (s.cache.line (s.cache.home id))).or (lookupid id (m'.line (s.cache.home id))) =
        lookupid id (m'.line (s.cache.home id)) ∧
      ((∀ v x, s.cache.view v id = some x → x.busy = false) →
        ∀ v x, m'.view v id = some x → x.busy = false) := by
  have slot : (s.cache.slot vp (s.cache.home id) j).busy = false := by rw [slot_eq here, idle]
  -- The new copy is not BUSY.
  have quiet : ∀ {data d}, Gains s.cache vp j id (filled e id data) d m' →
      (∀ v x, s.cache.view v id = some x → x.busy = false) →
        ∀ v x, m'.view v id = some x → x.busy = false := by
    intro data d gains before v x there
    rw [gains.view v] at there
    split_ifs at there
    · rw [Option.some.injEq] at there
      exact there ▸ rfl
    · exact before v x there
  cases found : lookupid id (s.cache.line (s.cache.home id)) with
  | some k =>
      rw [found] at done
      obtain ⟨vp', x, d, m, there, listed, run, gains, again⟩ :=
        fill_fetch s.store h.exact inside isValid here free missing found
      obtain rfl : m = m' := Option.some.inj (run.symm.trans done)
      refine ⟨h.gain isValid slot missing gains
        (.inl ⟨vp', x, d, there, listed, unlocked d listed, rfl, rfl⟩), gains.keeps.home,
        ⟨_, gains.here, rfl, rfl⟩, ?_, quiet gains⟩
      rw [again, Option.some_or]
  | none =>
      rw [found] at done
      have unlisted := listed_of_lookupid_none found
      obtain ⟨d, m, busy, modified, run, gains⟩ :=
        fill_load s.store h.exact inside isValid here free unlisted
      obtain rfl : m = m' := Option.some.inj (run.symm.trans done)
      exact ⟨h.gain isValid slot missing gains (.inr ⟨unlisted, busy, modified, rfl⟩),
        gains.keeps.home, ⟨_, gains.here, rfl, rfl⟩, Option.none_or, quiet gains⟩

/-- A miss drops a copy, makes another one and hands it out. -/
theorem Implements.miss {type : GetType} {got : Got} (h : Implements on s r)
    (asks : s.asks c = some (id, type)) (missing : s.cache.view (on c) id = none)
    (quiet : type = .getForWrite → ∀ j, got = .entry j → Quiet s.cache id)
    (done : SSACSimpleReplicatedArray.miss s.cache s.store (on c) id type =
      some (got, m', store')) :
    ∃ r', registers.exec r (got.events (on c) c id type m') = some r' ∧
      Implements on ({ s with cache := m', store := store' }.goto c (State.after id type got))
        r' := by
  have isValid := h.toHeld.valid asks
  rw [SSACSimpleReplicatedArray.miss] at done
  split_ifs at done with locked
  · -- The object is BUSY in the directory.
    simp only [Option.some.injEq, Prod.mk.injEq] at done
    obtain ⟨rfl, rfl, rfl⟩ := done
    exact ⟨r, rfl, h.goto isValid fun id' => (role_of_asks asks).symm⟩
  cases victim : lruentry (s.cache.queue (on c) (s.cache.home id)).entries with
  | none =>
      rw [victim] at done
      simp only [Option.some.injEq, Prod.mk.injEq] at done
      obtain ⟨rfl, rfl, rfl⟩ := done
      exact ⟨r, rfl, h.goto trivial fun id' => (role_of_asks asks).symm⟩
  | some j =>
      rw [victim] at done
      obtain ⟨m₀, m₁, store₁, cleaned, same, frees⟩ :=
        clean_frees s.store h.exact (h.inside c) isValid missing victim
      obtain ⟨e, here, free, idle⟩ := frees.here
      have implements₁ := h.frees (h.inside c) frees
      simp only [cleaned, Option.bind_some, same] at done
      obtain ⟨m₂, filled, done⟩ := Option.bind_eq_some_iff.mp done
      obtain ⟨m₃, handed, done⟩ := Option.map_eq_some_iff.mp done
      simp only [Prod.mk.injEq] at done
      obtain ⟨rfl, rfl, rfl⟩ := done
      have unlocked : ∀ d ∈ m₁.listed id, d.busy = false := by
        intro d there
        rw [frees.listed] at there
        obtain ⟨k, found, direntry⟩ := lookupid_of_listed h.exact.toTables isValid there
        simpa [found, direntry] using locked
      rw [← frees.lookup, ← frees.home] at filled handed
      obtain ⟨implements₂, home', ⟨e', here', idEq, idle'⟩, fresh, quiet'⟩ :=
        implements₁.copied (implements₁.inside c) isValid ((frees.view (on c)).trans missing)
          (frees.home ▸ here) free idle unlocked filled
      have hands := hand_spec implements₂.exact (implements₂.inside c) isValid
        (home' ▸ here') idEq (fun _ => home' ▸ fresh) (home' ▸ handed)
      rw [Got.events, hands.keeps.home, hands.data]
      refine implements₂.hand asks (home' ▸ here') idEq idle'
        (fun writes p y there busy => ?_) hands
      -- A client that is given the object for writing finds no BUSY copy of it.
      have idle : ∀ v x, m₁.view v id = some x → x.busy = false := by
        intro v x there
        by_contra busy
        rw [frees.view v] at there
        have inside := inside_of_view (Option.isSome_iff_exists.mpr ⟨x, there⟩)
        have busy' := quiet writes j rfl v inside (by
          rw [there]
          simpa using busy)
        obtain ⟨d, listed', held⟩ := (Option.any_eq_true ..).mp busy'
        rw [unlocked d (frees.listed.trans listed')] at held
        cases held
      rw [quiet' idle p y there] at busy
      cases busy

/-- A section of `get`. -/
theorem Implements.attempt (h : Implements on s r) (careful : Careful on s (.attempt c))
    (moved : s.step on (.attempt c) = some t) :
    ∃ r', registers.exec r (shows on s (.attempt c) t) = some r' ∧ Implements on t r' := by
  obtain ⟨⟨id, type⟩, asks, moved⟩ := Option.bind_eq_some_iff.mp moved
  obtain ⟨⟨got, m', store'⟩, attempted, rfl⟩ := Option.map_eq_some_iff.mp moved
  have events : shows on s (.attempt c) (State.goto { s with cache := m', store := store' } c
      (State.after id type got)) = got.events (on c) c id type m' := by
    simp only [shows, asks, attempted, State.goto]
  have granted : type = .getForWrite → ∀ j, got = .entry j → Quiet s.cache id ∧
      ((search id (s.cache.queue (on c) (s.cache.home id)).entries).isSome →
        Fresh s.cache id (s.pc c).direntry) := by
    rintro rfl j rfl
    exact careful id (by simp [State.grants, asks, attempted])
  rw [events]
  have missing : search id (s.cache.queue (on c) (s.cache.home id)).entries = none →
      s.cache.view (on c) id = none := fun none => by
    rw [SSAC.view, copy_of_search_none none, Option.map_none]
  obtain at_ | ⟨direntry, at_⟩ := asks_cases asks
  · simp only [State.attempt, at_, getFirst] at attempted
    cases found : search id (s.cache.queue (on c) (s.cache.home id)).entries with
    | some j =>
        rw [found] at attempted
        simp only at attempted
        split_ifs at attempted with busy
        · cases attempted
          exact ⟨r, rfl, h.goto (h.toHeld.valid asks) fun id' => (role_of_asks asks).symm⟩
        · obtain ⟨m, handed, same⟩ := Option.map_eq_some_iff.mp attempted
          cases same
          exact h.hit asks found (by simpa using busy) (fun writes => (granted writes j rfl).1)
            (fun _ k member => by cases member) handed
    | none =>
        rw [found] at attempted
        cases type with
        | getForRead =>
            cases attempted
            exact ⟨r, rfl, h.goto (h.toHeld.valid asks) fun id' => (role_of_asks asks).symm⟩
        | getForWrite =>
            exact h.miss asks (missing found) (fun writes j taken => (granted writes j taken).1)
              attempted
  · simp only [State.attempt, at_, getSecond] at attempted
    cases found : search id (s.cache.queue (on c) (s.cache.home id)).entries with
    | some j =>
        rw [found] at attempted
        simp only at attempted
        split_ifs at attempted with busy
        · cases attempted
          exact ⟨r, rfl, h.goto (h.toHeld.valid asks) fun id' => (role_of_asks asks).symm⟩
        · obtain ⟨m, handed, same⟩ := Option.map_eq_some_iff.mp attempted
          cases same
          refine h.hit asks found (by simpa using busy) (fun writes => (granted writes j rfl).1)
            (fun writes => ?_) handed
          have fresh := (granted writes j rfl).2 (by rw [found]; rfl)
          rwa [at_] at fresh
    | none =>
        rw [found] at attempted
        exact h.miss asks (missing found) (fun writes j taken => (granted writes j taken).1)
          attempted

/-! ### The other steps -/

/-- A client changes the entry that it has to do with, and goes on. -/
theorem Implements.change {e' : CacheEntrySimple} (h : Implements on s r)
    (here : (s.cache.queue (on c) q).entries[j]? = some e) (isValid : Valid e.id)
    (same : e'.id = e.id) (sound : pc.Sound (s.cache.setEntry (on c) q j e') (on c))
    (roles : ∀ id, id ≠ e.id → pc.role id = (s.pc c).role id)
    (moved : Coherence.Step on (s.cell e.id) none
      (((s.cell e.id).put (on c) (some (contents e'))).plays c (pc.role e.id))) :
    Implements on ({ s with cache := s.cache.setEntry (on c) q j e' }.goto c pc) r := by
  have points := points_same (n := (s.cache.queue (on c) q).count) here same
  have views : ∀ id v, Valid id → (s.cache.setEntry (on c) q j e').view v id = _ :=
    fun id v isValid => view_same h.exact (h.inside c) here same isValid
  have held : Held on ({ s with cache := s.cache.setEntry (on c) q j e' }.goto c pc) := by
    refine ⟨exact_same h.exact (h.inside c) here same, h.inside, fun d => ?_⟩
    by_cases at_ : d = c
    · subst at_
      simpa only [State.goto, Function.update_self] using sound
    · simp only [State.goto, Function.update_of_ne at_]
      exact (h.sound d).keep rfl rfl fun i l _ => points (on d) i l not_false
  have others : ∀ id, Valid id → id ≠ e.id →
      (({ s with cache := s.cache.setEntry (on c) q j e' } : State).goto c pc).cell id =
        s.cell id := by
    intro id isValid apart
    refine cell_eq (fun v => ?_) listed_setQueue rfl fun d => ?_
    · exact (views id v isValid).trans (if_neg fun both => apart both.2.symm)
    · by_cases at_ : d = c
      · subst at_
        simpa [State.goto] using roles id apart
      · simp [State.goto, at_]
  refine h.silent held isValid others ?_
  convert moved using 1
  refine Coherence.Cell.ext (funext fun v => ?_) ?_ ?_ rfl (funext fun d => ?_)
  · simpa [State.goto] using views e.id v isValid
  · exact congrArg (Option.any DirEntry.busy) listed_setQueue
  · exact congrArg (Option.any DirEntry.modified) listed_setQueue
  · by_cases at_ : d = c
    · subst at_
      simp [State.goto]
    · simp [State.goto, at_]

theorem Implements.write {v : Nat} (h : Implements on s r) (at_ : s.pc c = .writing id j) :
    Implements on { s with cache := (s.cache.setEntry (on c) (s.cache.home id) j
      { s.cache.slot (on c) (s.cache.home id) j with data := v, dirty := true }) } r := by
  have writer : (s.cell id).role c = .writing := by simp [at_, Pc.role]
  obtain ⟨l, entry, isValid, here, same, copy⟩ := h.copy c id (by simp [at_, Pc.role])
  obtain rfl : j = l := by simpa [at_, Pc.entry] using entry
  let e' : CacheEntrySimple :=
    { s.cache.slot (on c) (s.cache.home id) j with data := v, dirty := true }
  have sameId : e'.id = (s.cache.slot (on c) (s.cache.home id) j).id := rfl
  have changed := h.change here (same.symm ▸ isValid) sameId ?_ (fun _ _ => rfl) ?_
  · simpa [State.goto] using changed
  · have points := points_same (n := (s.cache.queue (on c) (s.cache.home id)).count) here sameId
    exact (h.sound c).keep rfl rfl fun i k _ => points (on c) i k not_false
  · rw [same]
    have step : Coherence.Step on (s.cell id) none _ := .write (v := v) writer copy
    convert step using 1
    refine Coherence.Cell.ext rfl rfl rfl rfl (funext fun d => ?_)
    by_cases at_ : d = c <;> simp [at_]

theorem Implements.save (h : Implements on s r) (at_ : s.pc c = .saving id q j) :
    Implements on ({ s with store := (Function.update s.store (s.cache.slot (on c) q j).id
      (s.cache.slot (on c) q j).data) }.goto c (.clearing id q j)) r := by
  have saver : (s.cell id).role c = .saving := by simp [at_, Pc.role]
  obtain ⟨l, entry, isValid, here, same, copy⟩ := h.copy c id (by simp [at_, Pc.role])
  obtain ⟨rfl, rfl⟩ : q = s.cache.home id ∧ j = l := by simpa [at_, Pc.entry] using entry
  rw [same]
  refine h.silent ⟨h.exact, h.inside, fun d => ?_⟩ isValid (fun id' _ apart => ?_) ?_
  · by_cases there : d = c
    · subst there
      have sound := h.sound d
      rw [at_] at sound
      have sound : Pc.Sound s.cache (on d) (.clearing id (s.cache.home id) j) := sound
      simpa only [State.goto, Function.update_self] using sound
    · simpa [State.goto, there] using h.sound d
  · refine cell_eq (fun _ => rfl) rfl (Function.update_of_ne apart ..) fun d => ?_
    by_cases there : d = c
    · subst there
      simp [State.goto, at_, Pc.role, Ne.symm apart]
    · simp [State.goto, there]
  · have step : Coherence.Step on (s.cell id) none _ := .save saver copy
    convert step using 1
    refine Coherence.Cell.ext rfl rfl rfl ?_ (funext fun d => ?_)
    · simp [State.goto, contents]
    · by_cases there : d = c
      · subst there
        simp [State.goto, Pc.role]
      · simp [State.goto, there]

theorem Implements.clear (h : Implements on s r) (at_ : s.pc c = .clearing id q j) :
    Implements on ({ s with cache := (s.cache.setEntry (on c) q j
      { s.cache.slot (on c) q j with dirty := false, busy := false }) }.goto c (.flushing q)) r := by
  have clearer : (s.cell id).role c = .clearing := by simp [at_, Pc.role]
  obtain ⟨l, entry, isValid, here, same, copy⟩ := h.copy c id (by simp [at_, Pc.role])
  obtain ⟨rfl, rfl⟩ : q = s.cache.home id ∧ j = l := by simpa [at_, Pc.entry] using entry
  refine h.change here (same.symm ▸ isValid) rfl trivial (fun id' apart => ?_) ?_
  · rw [same] at apart
    simp [at_, Pc.role, Ne.symm apart]
  · rw [same]
    exact .clear clearer copy

/-- The first section of `flush` on a queue. -/
theorem Implements.scan (h : Implements on s r) (at_ : s.pc c = .flushing q)
    (found : (s.cache.queue (on c) q).entries.findIdx? flushes = some j) :
    Implements on ({ s with cache := (s.cache.setEntry (on c) q j
      { s.cache.slot (on c) q j with busy := true }) }.goto c
        (.saving (s.cache.slot (on c) q j).id q j)) r := by
  obtain ⟨bound, dirty, _⟩ := List.findIdx?_eq_some_iff_getElem.mp found
  have slot : (s.cache.queue (on c) q).entries[j] = s.cache.slot (on c) q j :=
    (SSACSimpleSharedArray.entryAt_eq bound).symm
  have here : (s.cache.queue (on c) q).entries[j]? = some (s.cache.slot (on c) q j) := by
    rw [List.getElem?_eq_getElem bound, slot]
  rw [slot, flushes] at dirty
  simp only [Bool.and_eq_true, Bool.not_eq_true'] at dirty
  obtain ⟨⟨idle, isValid⟩, dirty⟩ := dirty
  refine h.change here isValid rfl ?_ (fun id' apart => ?_) ?_
  · refine ⟨isValid, h.exact.placed (on c) q _ (List.mem_of_getElem? here) isValid, ?_, ?_⟩
    · exact h.exact.length (on c) q ▸ bound
    · rw [SSAC.setEntry, slot_setQueue here, if_pos ⟨rfl, rfl, rfl⟩]
  · simp [at_, Pc.role, Ne.symm apart]
  · have step : Coherence.Step on (s.cell (s.cache.slot (on c) q j).id) none _ :=
      .hold (c := c) (x := contents (s.cache.slot (on c) q j)) (by simp [at_, Pc.role])
        (h.exact.view_at (h.inside c) here isValid) idle
    convert step using 1
    simp [Pc.role, contents]

/-- A writer hands its data to all copies. -/
theorem Implements.putback (h : Implements on s r) (at_ : s.pc c = .writing id j)
    (flag : PutFlag) :
    ∃ m' r', SSACSimpleReplicatedArray.putback s.cache (on c) (s.cache.home id) j flag = some m' ∧
      registers.exec r
        [(id, .release c (s.cache.slot (on c) (s.cache.home id) j).data)] = some r' ∧
      Implements on ({ s with cache := m' }.goto c .idle) r' := by
  have writer : (s.cell id).role c = .writing := by simp [at_, Pc.role]
  obtain ⟨l, entry, isValid, here, same, copy⟩ := h.copy c id (by simp [at_, Pc.role])
  obtain rfl : j = l := by simpa [at_, Pc.entry] using entry
  generalize s.cache.slot (on c) (s.cache.home id) j = e at here same copy
  subst same
  -- The time of the access changes first, and then the copies.
  let e' : CacheEntrySimple :=
    { e with
      lastused := if flag = .keep then (s.cache.queue (on c) (s.cache.home e.id)).count else 0 }
  let m := s.cache.setEntry (on c) (s.cache.home e.id) j e'
  have exact : m.Exact := exact_same h.exact (h.inside c) here rfl
  have sameId : e'.id = e.id := rfl
  have near : SSAC.Points s.cache m fun _ _ _ => False := points_same here sameId
  have here' : (m.queue (on c) (s.cache.home e.id)).entries[j]? = some e' := by
    simp only [m, SSAC.setEntry, queue_setQueue, and_self, if_true]
    exact List.getElem?_set_self (List.getElem?_eq_some_iff.mp here).1
  have view : ∀ id v, Valid id → m.view v id = s.cache.view v id := by
    intro id v isValid'
    refine (view_same h.exact (h.inside c) here sameId isValid').trans ?_
    split_ifs with at_
    · rw [at_.1, ← at_.2]
      exact copy.symm
    · rfl
  have listed : ∀ id, m.listed id = s.cache.listed id := fun id => listed_setQueue
  obtain ⟨d, there⟩ := h.exact.listed_of_view isValid copy
  obtain ⟨k, found, _⟩ := lookupid_of_listed exact.toTables isValid ((listed e.id).trans there)
  obtain ⟨m', run, exact', keeps, points, views, listed', _⟩ := forCopies_spec
    (f := fun x => { x with data := e.data, busy := false })
    (g := fun x => { x with busy := false })
    (F := fun x => { x with data := e.data, busy := false }) false exact isValid (h.inside c) found
    here' rfl (fun _ => rfl) (fun _ => rfl) rfl rfl
  have run : SSACSimpleReplicatedArray.putback s.cache (on c) (s.cache.home e.id) j flag =
      some m' := by
    rw [SSACSimpleReplicatedArray.putback, slot_eq here]
    refine (congrArg (Option.bind · _) found).trans ?_
    rw [Option.bind_some, updateandclearbusyonallcopiesindir, slot_eq here', ← run]
    rfl
  have held : Held on ({ s with cache := m' }.goto c .idle) := by
    refine ⟨exact', keeps.numproc.symm ▸ h.inside, fun b => ?_⟩
    by_cases same : b = c
    · subst same
      simp only [State.goto, Function.update_self]
      trivial
    · simp only [State.goto, Function.update_of_ne same]
      refine (h.sound b).keep keeps.numhashqs keeps.associativity fun i l _ => ?_
      exact (points (on b) i l not_false).trans (near (on b) i l not_false)
  have others : ∀ id, Valid id → id ≠ e.id →
      (({ s with cache := m' } : State).goto c .idle).cell id = s.cell id := by
    intro id isValid' apart
    refine cell_eq (fun v => (keeps.view id isValid' apart v).trans (view id v isValid'))
      ((keeps.listed id isValid' apart).trans (listed id)) rfl fun b => ?_
    by_cases same : b = c
    · subst same
      simp [State.goto, at_, Pc.role, Ne.symm apart]
    · simp [State.goto, same]
  have moved : Coherence.Step on (s.cell e.id) (some (.release c e.data))
      ((({ s with cache := m' } : State).goto c .idle).cell e.id) := by
    have step : Coherence.Step on (s.cell e.id) (some (.release c e.data)) _ :=
      .release (x := contents e) writer copy
    convert step using 1
    refine Coherence.Cell.ext (funext fun v => ?_) ?_ ?_ rfl (funext fun b => ?_)
    · exact (views v).trans (congrArg (Option.map _) (view e.id v isValid))
    · simp [State.goto, State.cell, listed', listed, there]
    · simp [State.goto, State.cell, listed', listed, there]
    · by_cases same : b = c
      · subst same
        simp [State.goto, Pc.role]
      · simp [State.goto, same]
  obtain ⟨r', answered, implements⟩ := h.move held isValid others moved
  exact ⟨m', r', run, answered, implements⟩

end

end EBBLib.SSACSimpleReplicatedArray
