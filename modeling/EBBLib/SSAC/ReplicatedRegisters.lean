import EBBLib.SSAC.ReplicatedCoherence
import EBBLib.SSAC.ReplicatedFrame

/-!
# Runs of the replicated cache

Whatever the clients do, in any order, what they are given and put back is a run of the
registers, as long as the steps are careful. The directory is exact in all states of such runs,
no update is lost, and no assertion fails.
-/

namespace EBBLib.SSACSimpleReplicatedArray

open SSACSimpleSharedArray (CacheObjectIdSimple CacheEntrySimple GetType PutFlag Store entryAt
  flushes)
open SSACSimpleSharedArray.CacheObjectIdSimple
open SSACSimpleSharedArray.HashQueues (search lruentry)
open Coherence (Register Coherent registers)

section

variable {on : Nat → Nat} {s t : State} {r : CacheObjectIdSimple → Register Nat Nat}
  {n a p c : Nat} {id : CacheObjectIdSimple}

/-- A step of the clients is answered by the registers. -/
theorem Implements.step {action : Action} (h : Implements on s r) (careful : Careful on s action)
    (moved : s.step on action = some t) :
    ∃ r', registers.exec r (shows on s action t) = some r' ∧ Implements on t r' := by
  cases action with
  | get c id type =>
      cases at_ : s.pc c <;> simp only [State.step, at_, reduceCtorEq] at moved
      split_ifs at moved with isValid
      cases moved
      exact ⟨r, rfl, h.goto isValid fun _ => by rw [at_]; rfl⟩
  | attempt c => exact h.attempt careful moved
  | write c v =>
      cases at_ : s.pc c <;> simp only [State.step, at_, reduceCtorEq] at moved
      cases moved
      exact ⟨r, rfl, h.write at_⟩
  | putback c flag =>
      cases at_ : s.pc c <;> simp only [State.step, at_, reduceCtorEq] at moved
      obtain ⟨m', r', run, answered, implements⟩ := h.putback at_ flag
      rw [run, Option.map_some, Option.some.injEq] at moved
      subst moved
      refine ⟨r', ?_, implements⟩
      simpa only [shows, at_] using answered
  | flush c =>
      cases at_ : s.pc c <;> simp only [State.step, at_, reduceCtorEq] at moved
      cases moved
      exact ⟨r, rfl, h.goto trivial fun _ => by rw [at_]; rfl⟩
  | scan c =>
      cases at_ : s.pc c <;> simp only [State.step, at_, reduceCtorEq] at moved
      split_ifs at moved
      · split at moved
        · cases moved
          exact ⟨r, rfl, h.goto trivial fun _ => by rw [at_]; rfl⟩
        · next found =>
            cases moved
            exact ⟨r, rfl, h.scan at_ found⟩
      · cases moved
        exact ⟨r, rfl, h.goto trivial fun _ => by rw [at_]; rfl⟩
  | save c =>
      cases at_ : s.pc c <;> simp only [State.step, at_, reduceCtorEq] at moved
      cases moved
      exact ⟨r, rfl, h.save at_⟩
  | clear c =>
      cases at_ : s.pc c <;> simp only [State.step, at_, reduceCtorEq] at moved
      cases moved
      exact ⟨r, rfl, h.clear at_⟩

/-! ### The caches at first -/

theorem created_copy {vp : Nat} (isValid : Valid id) : (created n a p).copy vp id = none := by
  have missing : Keyed.lookup CacheEntrySimple.id id (List.replicate a .new) = none :=
    Keyed.lookup_replicate (show CacheEntrySimple.new.id ≠ id from invalid_ne isValid) a
  rw [SSAC.copy]
  split_ifs
  · exact missing
  · rfl

theorem created_listed (isValid : Valid id) : (created n a p).listed id = none := by
  have missing : Keyed.lookup DirEntry.id id (List.replicate (a * p) .new) = none :=
    Keyed.lookup_replicate (show DirEntry.new.id ≠ id from invalid_ne isValid) (a * p)
  exact missing

theorem created_exact (positive : 0 < p) (small : p ≤ 31) : (created n a p).Exact where
  positive := positive
  length _ _ := List.length_replicate
  lengthLine _ := List.length_replicate
  distinct _ _ :=
    Keyed.distinct_replicate (show ¬ Valid CacheEntrySimple.new.id from not_valid_invalid) a
  distinctLine _ :=
    Keyed.distinct_replicate (show ¬ Valid DirEntry.new.id from not_valid_invalid) (a * p)
  placed _ _ e member isValid := by
    rw [List.eq_of_mem_replicate member] at isValid
    exact absurd isValid not_valid_invalid
  placedLine _ d member isValid := by
    rw [List.eq_of_mem_replicate member] at isValid
    exact absurd isValid not_valid_invalid
  unused _ _ member _ := List.eq_of_mem_replicate member
  small := small
  mask_eq id isValid vp := by
    rw [SSAC.mask, created_listed isValid, SSAC.view, created_copy isValid]
    simp
  shared id d isValid there := by
    rw [created_listed isValid] at there
    cases there

/-- Every register has the value in the backing store. -/
def stored (s : State) (id : CacheObjectIdSimple) : Register Nat Nat := ⟨s.store id, none⟩

theorem implements_stored (positive : 0 < p) (small : p ≤ 31) (inside : ∀ c, on c < p)
    (start : (machine n a p on).init s) : Implements on s (stored s) := by
  obtain ⟨cache, idle⟩ := start
  have exact : s.cache.Exact := cache ▸ created_exact positive small
  refine ⟨⟨exact, fun c => cache ▸ inside c, fun c => by rw [idle c]; trivial⟩,
    fun id isValid => ?_⟩
  have unlisted : s.cache.listed id = none := cache ▸ created_listed isValid
  refine .start (fun vp => ?_) (fun c => ?_) ?_ ?_
  · rw [cell_copies, cache, SSAC.view, created_copy isValid, Option.map_none]
  · rw [cell_role, idle c]
    rfl
  · simp only [State.cell, unlisted, Option.any_none]
  · simp only [State.cell, unlisted, Option.any_none]

/-! ### Careful runs -/

theorem role_eq_writing {pc : Pc} : pc.role id = .writing ↔ ∃ j, pc = .writing id j := by
  cases pc <;> grind [Pc.role]

/-- Two processors with one queue of one entry each. -/
def pair : State := { cache := created 1 1 2, store := fun _ => 0, pc := fun _ => .idle }

/-- A client changes an object that another one reads on the other processor. -/
def handover : List Action :=
  [.get 0 5 .getForWrite, .attempt 0, .write 0 7, .putback 0 .keep, .get 1 5 .getForRead,
    .attempt 1, .attempt 1]

theorem pair_init : (machine 1 1 2 (· % 2)).init pair := ⟨rfl, fun _ => rfl⟩

theorem pair_inside (c : Nat) : c % 2 < 2 := Nat.mod_lt c (by decide)

theorem valid_five : Valid 5 := by
  rw [Valid]
  decide

/-- The state after the handover. -/
def handed : State :=
  ((machine 1 1 2 (· % 2)).execVia (Careful (· % 2)) pair handover).get (by decide +kernel)

theorem handover_run :
    (machine 1 1 2 (· % 2)).execVia (Careful (· % 2)) pair handover = some handed :=
  (Option.some_get _).symm

theorem handed_reached : (machine 1 1 2 (· % 2)).ReachVia (Careful (· % 2)) handed :=
  Machine.reachVia_of_execVia pair_init handover_run

/-- The first client wants to write the object again. -/
def asking : State :=
  ((machine 1 1 2 (· % 2)).execVia (Careful (· % 2)) pair
    (handover ++ [.get 0 5 .getForWrite])).get (by decide +kernel)

theorem asking_reached : (machine 1 1 2 (· % 2)).ReachVia (Careful (· % 2)) asking :=
  Machine.reachVia_of_execVia pair_init (Option.some_get _).symm

/-- The writers are the holders. -/
theorem Implements.holder_iff (h : Implements on s r) (isValid : Valid id) (c : Nat) :
    (r id).holder = some c ↔ ∃ j, s.pc c = .writing id j :=
  ((h.coherent id isValid).holder c).trans role_eq_writing

/-- The copies of a free object have its value. -/
theorem Implements.copies_eq (h : Implements on s r) (isValid : Valid id)
    (free : (r id).holder = none) (vp : Nat) (x : Coherence.Copy Nat)
    (there : s.cache.view vp id = some x) : x.data = (r id).value := by
  refine (h.coherent id isValid).agree vp x there fun c writer => ?_
  rw [((h.coherent id isValid).holder c).mpr writer] at free
  cases free

/-- The backing store has the value of an object that nothing says to be changed. -/
theorem Implements.stored_eq (h : Implements on s r) (isValid : Valid id)
    (clean : ∀ vp x, s.cache.view vp id = some x → x.dirty = false)
    (unmodified : ∀ d, s.cache.listed id = some d → d.modified = false) :
    s.store id = (r id).value := by
  obtain same | modified | ⟨vp, x, there, dirty⟩ := (h.coherent id isValid).kept
  · exact same
  · obtain ⟨d, listed, modified⟩ := (Option.any_eq_true ..).mp modified
    rw [unmodified d listed] at modified
    cases modified
  · rw [clean vp x there] at dirty
    cases dirty

section

variable (positive : 0 < p) (small : p ≤ 31) (inside : ∀ c, on c < p)

include positive small inside

theorem reach_implements (reached : (machine n a p on).ReachVia (Careful on) s) :
    ∃ r, Implements on s r := by
  induction reached with
  | init start => exact ⟨_, implements_stored positive small inside start⟩
  | step _ careful moved ih =>
      obtain ⟨r, h⟩ := ih
      obtain ⟨r', _, h'⟩ := h.step careful moved
      exact ⟨r', h'⟩

theorem careful_run {as : List Action} (start : (machine n a p on).init s)
    (run : (machine n a p on).execVia (Careful on) s as = some t) :
    ∃ r, registers.exec (stored s) ((machine n a p on).events (shows on) s as) = some r ∧
      Implements on t r := by
  have refines : ∀ s r action t, (machine n a p on).ReachVia (Careful on) s → Implements on s r →
      Careful on s action → (machine n a p on).step s action = some t →
        ∃ r', registers.exec r (shows on s action t) = some r' ∧ Implements on t r' :=
    fun _ _ _ _ _ h careful moved => h.step careful moved
  exact Machine.execVia_refines refines (.init start)
    (implements_stored positive small inside start) run

/-- What the clients are given and put back is a run of the registers. At its end the writers
are the holders, the copies of a free object have its value, and so has the backing store
unless there is a dirty copy or the directory says that one has been dropped. -/
theorem careful_run_registers {as : List Action} (start : (machine n a p on).init s)
    (run : (machine n a p on).execVia (Careful on) s as = some t) :
    ∃ r, registers.exec (stored s) ((machine n a p on).events (shows on) s as) = some r ∧
      ∀ id, Valid id →
        (∀ c, (r id).holder = some c ↔ ∃ j, t.pc c = .writing id j) ∧
        ((r id).holder = none → ∀ vp x, t.cache.view vp id = some x → x.data = (r id).value) ∧
        ((∀ vp x, t.cache.view vp id = some x → x.dirty = false) →
          (∀ d, t.cache.listed id = some d → d.modified = false) → t.store id = (r id).value) := by
  obtain ⟨r, answered, implements⟩ := careful_run positive small inside start run
  exact ⟨r, answered, fun id isValid =>
    ⟨implements.holder_iff isValid, implements.copies_eq isValid, implements.stored_eq isValid⟩⟩

omit positive small inside in
theorem handover_registers : ∃ r, registers.exec (stored pair)
    [(5, .acquire 0 0), (5, .release 0 7), (5, .read 1 7)] = some r ∧
      ((r 5).holder = none → ∀ vp x, handed.cache.view vp 5 = some x → x.data = (r 5).value) := by
  obtain ⟨r, answered, told⟩ :=
    careful_run_registers (by decide) (by decide) pair_inside pair_init handover_run
  have events : (machine 1 1 2 (· % 2)).events (shows (· % 2)) pair handover =
      [(5, .acquire 0 0), (5, .release 0 7), (5, .read 1 7)] := by decide +kernel
  exact ⟨r, events ▸ answered, (told 5 valid_five).2.1⟩

/-- The directory is exact: its mask for an object has the processors that have a copy. A
processor has at most one. -/
theorem careful_directory_exact (reached : (machine n a p on).ReachVia (Careful on) s)
    (isValid : Valid id) :
    (∀ vp, (s.cache.mask id).getLsbD vp ↔
      vp < p ∧ ∃ j < a, (s.cache.slot vp (s.cache.home id) j).id = id) ∧
    ∀ vp i j i' j', j < a → j' < a → (s.cache.slot vp i j).id = id →
      (s.cache.slot vp i' j').id = id → i = i' ∧ j = j' := by
  obtain ⟨r, h⟩ := reach_implements positive small inside reached
  obtain ⟨numproc, _, associativity⟩ := reach_sizes reached
  have exact := h.exact
  have here : ∀ vp i j, j < a → (s.cache.queue vp i).entries[j]? = some (s.cache.slot vp i j) :=
    fun vp i j bound => slot_here exact.toTables vp i (associativity ▸ bound)
  refine ⟨fun vp => ?_, fun vp i j i' j' bound bound' same same' => ?_⟩
  · rw [exact.mask_eq id isValid vp, ← copy_isSome]
    constructor
    · intro present
      obtain ⟨e, copy⟩ := Option.isSome_iff_exists.mp present
      obtain ⟨inside, j, found, there⟩ := search_of_copy copy
      refine ⟨numproc ▸ inside, j, ?_, (search_eq_some found).2⟩
      rw [← associativity, ← exact.length vp (s.cache.home id)]
      exact (List.getElem?_eq_some_iff.mp there).1
    · rintro ⟨inside, j, bound, same⟩
      have copy := exact.copy_at (numproc.symm ▸ inside) (here vp _ j bound) (same.symm ▸ isValid)
      rw [same] at copy
      rw [copy, Option.isSome_some]
  · have first := here vp i j bound
    have second := here vp i' j' bound'
    have placed := exact.placed vp i _ (List.mem_of_getElem? first) (same.symm ▸ isValid)
    have placed' := exact.placed vp i' _ (List.mem_of_getElem? second) (same'.symm ▸ isValid)
    rw [same] at placed
    rw [same', placed] at placed'
    subst placed'
    exact ⟨rfl, exact.distinct vp i j j' _ _ first second (same.symm ▸ isValid)
      (same.trans same'.symm)⟩

omit positive small inside in
theorem handed_directory_exact : (handed.cache.mask 5).getLsbD 1 ↔
    1 < 2 ∧ ∃ j < 1, (handed.cache.slot 1 (handed.cache.home 5) j).id = 5 :=
  (careful_directory_exact (by decide) (by decide) pair_inside handed_reached valid_five).1 1

/-- With the queues initialised, no assertion fails and no null pointer is dereferenced: a
section of `get` returns as long as the count of the queue does not overflow and `direntry` is
right, and `putback` always does. -/
theorem careful_returns (reached : (machine n a p on).ReachVia (Careful on) s) :
    (∀ type, s.asks c = some (id, type) → s.cache.Room (on c) (s.cache.home id) →
      (type = .getForWrite → (search id (s.cache.queue (on c) (s.cache.home id)).entries).isSome →
        Fresh s.cache id (s.pc c).direntry) → (s.attempt on c).isSome) ∧
    ∀ flag, (∃ j, s.pc c = .writing id j) → (s.step on (.putback c flag)).isSome := by
  obtain ⟨r, h⟩ := reach_implements positive small inside reached
  refine ⟨fun type asks room fresh => ?_, ?_⟩
  · have isValid := h.toHeld.valid asks
    have missed : search id (s.cache.queue (on c) (s.cache.home id)).entries = none →
        (miss s.cache s.store (on c) id type).isSome := fun missing =>
      miss_isSome s.store h.exact (h.inside c) isValid
        (by rw [SSAC.view, copy_of_search_none missing, Option.map_none]) room
    have hit : ∀ {j}, search id (s.cache.queue (on c) (s.cache.home id)).entries = some j →
        ∀ direntry, (∀ k ∈ direntry, k ∈ (s.pc c).direntry) →
          (hand s.cache (on c) id type j direntry).isSome := by
      intro j found direntry same
      obtain ⟨here, idEq⟩ := search_eq_some found
      refine hand_isSome h.exact (h.inside c) isValid here idEq (fun writes => ?_) room
      have fresh : Fresh s.cache id direntry := fun k member =>
        fresh writes (by rw [found]; rfl) k (same k member)
      exact fresh.or_eq h.exact.toTables isValid
    obtain at_ | ⟨direntry, at_⟩ := asks_cases asks
    · simp only [State.attempt, at_]
      unfold getFirst
      split
      · next j found =>
          split_ifs
          · rfl
          · rw [Option.isSome_map]
            exact hit found none (by simp)
      · next missing =>
          cases type with
          | getForRead => rfl
          | getForWrite => exact missed missing
    · simp only [State.attempt, at_, getSecond]
      split
      · next j found =>
          split_ifs
          · rfl
          · rw [Option.isSome_map]
            exact hit found direntry (by simp [at_, Pc.direntry])
      · next missing => exact missed missing
  · rintro flag ⟨j, at_⟩
    obtain ⟨m', _, run, _⟩ := h.putback at_ flag
    simp only [State.step, at_, run, Option.map_some, Option.isSome_some]

omit positive small inside in
theorem asking_returns : (asking.attempt (· % 2) 0).isSome :=
  (careful_returns (by decide) (by decide) pair_inside asking_reached).1 .getForWrite
    (show asking.asks 0 = some (5, .getForWrite) by decide +kernel)
    (by unfold SSAC.Room; decide +kernel) (fun _ _ => by decide +kernel)

end

end

end EBBLib.SSACSimpleReplicatedArray
