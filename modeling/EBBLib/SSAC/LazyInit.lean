import EBBLib.Library.Transition
import EBBLib.SSAC.Slots

/-!
# The first access to a queue

`get` looks for the entries of its queue without the lock, and takes the lock to allocate
them when there are none. It does not look again under the lock, so a client that has
looked before another one allocated runs into the assertion of `init`.

The clients use one queue. The test, each `acquireLock`, `init` and each `releaseLock` are
steps of their own, and the lock keeps a second client out.
-/

namespace EBBLib.SSACSimpleSharedArray.LazyInit

open CacheObjectIdSimple

/-- Where a client is, with the arguments of its `get`. -/
inductive Pc where
  | idle
  /-- Before the test of `hashq->entries`. -/
  | test (id : CacheObjectIdSimple) (type : GetType)
  /-- It has found no entries and is about to take the lock. -/
  | acquire (id : CacheObjectIdSimple) (type : GetType)
  /-- With the lock, before `init`. -/
  | init (id : CacheObjectIdSimple) (type : GetType)
  | release (id : CacheObjectIdSimple) (type : GetType)
  /-- At the label `again`. -/
  | again (id : CacheObjectIdSimple) (type : GetType)
  /-- With the lock, before `search`. -/
  | search (id : CacheObjectIdSimple) (type : GetType)
deriving DecidableEq, Repr

/-- A queue and its clients. The last three fields record what has happened: how often
entries were allocated, whether the assertion of `init` has failed, which ends the process,
and whether a client has searched a queue without entries. -/
structure State (n : Nat) where
  queue : HashQueues
  store : Store
  lock : Option (Fin n)
  pc : Fin n → Pc
  allocs : Nat
  failed : Bool
  lost : Bool

inductive Action (n : Nat) where
  | get (c : Fin n) (id : CacheObjectIdSimple) (type : GetType)
  /-- A client in `get` goes on. -/
  | next (c : Fin n)
deriving DecidableEq, Repr

namespace State

variable {n : Nat} (s : State n)

/-- A client gets somewhere. -/
def goto (c : Fin n) (pc : Pc) : State n := { s with pc := Function.update s.pc c pc }

/-- The step of a client in `get`, on a queue of `associativity` entries. -/
def next (associativity : Nat) (c : Fin n) : Option (State n) :=
  match s.pc c with
  | .idle => none
  | .test id type =>
      if s.queue.entries.isNone then some (s.goto c (.acquire id type))
      else some (s.goto c (.again id type))
  | .acquire id type =>
      if s.lock.isNone then some ({ s with lock := some c }.goto c (.init id type)) else none
  | .init id type =>
      match s.queue.init associativity with
      | none => some { s with failed := true }
      | some queue => some ({ s with queue, allocs := s.allocs + 1 }.goto c (.release id type))
  | .release id type => some ({ s with lock := none }.goto c (.again id type))
  | .again id type =>
      if s.lock.isNone then some ({ s with lock := some c }.goto c (.search id type)) else none
  | .search id type =>
      if s.queue.entries.isNone then some { s with lost := true }
      else
        (getLocked id type s.store s.queue).map fun (got, queue, store) =>
          let pc := if got = .again then .again id type else .idle
          { s with queue, store, lock := none }.goto c pc

def step (associativity : Nat) : Action n → Option (State n)
  | .get c id type =>
      if s.failed || s.lost then none
      else if s.pc c = .idle then some (s.goto c (.test id type)) else none
  | .next c => if s.failed || s.lost then none else s.next associativity c

end State

/-- A new queue, and clients that are not in `get`. -/
def start (n : Nat) (store : Store) : State n where
  queue := .new
  store := store
  lock := none
  pc _ := .idle
  allocs := 0
  failed := false
  lost := false

/-- `n` clients of one queue. -/
def machine (n associativity : Nat) : Machine (State n) (Action n) where
  init s := ∃ store, s = start n store
  step s := s.step associativity

/-- The client is between a test that has found no entries and the end of `init`. -/
def Pc.initialising : Pc → Bool
  | acquire .. => true
  | init .. => true
  | _ => false

def Pc.locks : Pc → Bool
  | init .. => true
  | release .. => true
  | search .. => true
  | _ => false

/-- The client goes on to use the entries. -/
def Pc.proceeds : Pc → Bool
  | release .. => true
  | again .. => true
  | search .. => true
  | _ => false

def Pc.tests : Pc → Bool
  | test .. => true
  | _ => false

/-- No client makes the test while another one is about to allocate the entries. -/
def Alone {n : Nat} (s : State n) : Action n → Prop
  | .get .. => True
  | .next c => (s.pc c).tests → s.queue.entries.isNone → ∀ d, (s.pc d).initialising = false

instance {n : Nat} (s : State n) (a : Action n) : Decidable (Alone s a) :=
  match a with
  | .get .. => isTrue trivial
  | .next _ => inferInstanceAs (Decidable (_ → _ → ∀ _, _ = false))

/-- What lazy initialisation should guarantee. -/
structure Once {n : Nat} (s : State n) : Prop where
  allocs : s.allocs = if s.queue.entries.isSome then 1 else 0
  used : ∀ c, (s.pc c).proceeds → s.allocs = 1
  asserted : s.failed = false
  found : s.lost = false

/-- Who has the lock, and who may be where. -/
structure Inv {n : Nat} (s : State n) : Prop where
  allocs : s.allocs = if s.queue.entries.isSome then 1 else 0
  asserted : s.failed = false
  found : s.lost = false
  lock : ∀ c, s.lock = some c ↔ (s.pc c).locks
  empty : s.queue.entries.isNone → ∀ c, (s.pc c).proceeds = false
  filled : s.queue.entries.isSome → ∀ c, (s.pc c).initialising = false
  one : ∀ c d, (s.pc c).initialising → (s.pc d).initialising → c = d

namespace Inv

variable {n k : Nat} {s t : State n} {c : Fin n}

/-- What a step of client `c` does with the lock. -/
inductive Lock (s : State n) (c : Fin n) (pc : Pc) : Option (Fin n) → Prop
  | keep (same : pc.locks = (s.pc c).locks) : Lock s c pc s.lock
  | take (free : s.lock.isNone) (locks : pc.locks) : Lock s c pc (some c)
  | drop (had : (s.pc c).locks) (locks : pc.locks = false) : Lock s c pc none

theorem lock_goto (inv : Inv s) {pc : Pc} {lock : Option (Fin n)} (how : Lock s c pc lock)
    (d : Fin n) : lock = some d ↔ (Function.update s.pc c pc d).locks := by
  by_cases own : d = c
  · subst own
    rw [Function.update_self]
    cases how with
    | keep same => rw [inv.lock, same]
    | take _ locks => simp [locks]
    | drop _ locks => simp [locks]
  · rw [Function.update_of_ne own]
    cases how with
    | keep => exact inv.lock d
    | take free =>
        rw [← inv.lock, Option.isNone_iff_eq_none.mp free]
        simp [Ne.symm own]
    | drop had =>
        rw [← inv.lock, (inv.lock c).mpr had]
        simp [Ne.symm own]

/-- The rule for a step of client `c` to `pc`. -/
theorem goto (inv : Inv s) {pc : Pc} {lock : Option (Fin n)} {queue : HashQueues} {store : Store}
    {allocs : Nat} (how : Lock s c pc lock)
    (counted : allocs = if queue.entries.isSome then 1 else 0)
    (empty : queue.entries.isNone → s.queue.entries.isNone ∧ pc.proceeds = false)
    (filled : queue.entries.isSome →
      pc.initialising = false ∧ ∀ d, d ≠ c → (s.pc d).initialising = false)
    (one : pc.initialising → ∀ d, d ≠ c → (s.pc d).initialising = false) :
    Inv ({ s with queue, store, lock, allocs }.goto c pc) := by
  refine ⟨counted, inv.asserted, inv.found, inv.lock_goto how, ?_, ?_, ?_⟩
  · intro none d
    obtain ⟨before, stays⟩ := empty none
    by_cases own : d = c
    · simpa [State.goto, own] using stays
    · simpa [State.goto, own] using inv.empty before d
  · intro some d
    obtain ⟨stays, others⟩ := filled some
    by_cases own : d = c
    · simpa [State.goto, own] using stays
    · simpa [State.goto, own] using others d own
  · intro d e first second
    simp only [State.goto] at first second
    by_cases d_own : d = c <;> by_cases e_own : e = c
    · rw [d_own, e_own]
    · simp only [d_own, Function.update_self, Function.update_of_ne e_own] at first second
      rw [one first e e_own] at second
      cases second
    · simp only [e_own, Function.update_self, Function.update_of_ne d_own] at first second
      rw [one second d d_own] at first
      cases first
    · simp only [Function.update_of_ne d_own, Function.update_of_ne e_own] at first second
      exact inv.one d e first second

theorem once (inv : Inv s) : Once s := by
  refine ⟨inv.allocs, ?_, inv.asserted, inv.found⟩
  intro c proceeds
  have some : s.queue.entries.isSome := by
    by_contra none
    rw [inv.empty (by simpa using none) c] at proceeds
    cases proceeds
  rw [inv.allocs, if_pos some]

/-- A step that leaves the queue alone. -/
theorem walk (inv : Inv s) {pc : Pc} {lock : Option (Fin n)} (how : Lock s c pc lock)
    (proceeds : s.queue.entries.isNone → pc.proceeds = false)
    (initialising : pc.initialising → (s.pc c).initialising ∨
      s.queue.entries.isNone ∧ ∀ d, (s.pc d).initialising = false) :
    Inv ({ s with lock }.goto c pc) := by
  have one : pc.initialising → ∀ d, d ≠ c → (s.pc d).initialising = false := by
    intro there d other
    obtain before | ⟨_, none⟩ := initialising there
    · by_contra second
      exact other (inv.one d c (Bool.not_eq_false _ ▸ second) before)
    · exact none d
  refine inv.goto how inv.allocs (fun none => ⟨none, proceeds none⟩) (fun some => ⟨?_, ?_⟩) one
  · by_contra there
    obtain before | ⟨none, _⟩ := initialising (Bool.not_eq_false _ ▸ there)
    · rw [inv.filled some c] at before
      cases before
    · simp_all
  · exact fun d _ => inv.filled some d

/-- The locked section of `get` keeps the entries. -/
theorem isSome_getLocked {id : CacheObjectIdSimple} {type : GetType} {store store' : Store}
    {q q' : HashQueues} {got : Got}
    (run : getLocked id type store q = some (got, q', store')) : q'.entries.isSome := by
  cases entries : q.entries with
  | none => simp [getLocked, entries] at run
  | some es =>
      simp only [getLocked, entries] at run
      -- A BUSY entry, a hit, a miss and no free entry.
      split at run
      · split at run
        · cases run
          simp [entries]
        · obtain ⟨_, accessed, same⟩ := Option.map_eq_some_iff.mp run
          cases same
          obtain ⟨lastused, rfl⟩ := access_cases accessed
          rfl
      · split at run
        · obtain ⟨_, accessed, same⟩ := Option.map_eq_some_iff.mp run
          cases same
          obtain ⟨lastused, rfl⟩ := access_cases accessed
          rfl
        · cases run
          simp [entries]

/-- A client past the test has seen the entries made. -/
theorem isSome_of_proceeds (inv : Inv s) (c : Fin n) (past : (s.pc c).proceeds) :
    ¬ s.queue.entries.isNone := by
  intro none
  rw [inv.empty none c] at past
  cases past

theorem next (inv : Inv s) (alone : Alone s (.next c)) (moved : s.next k c = some t) : Inv t := by
  cases at_ : s.pc c with
  | idle => simp [State.next, at_] at moved
  | test id type =>
      simp only [State.next, at_] at moved
      by_cases none : s.queue.entries.isNone
      · rw [if_pos none, Option.some.injEq] at moved
        subst moved
        have others := alone (by rw [at_]; rfl) none
        exact inv.walk (.keep (by rw [at_]; rfl)) (fun _ => rfl) fun _ => .inr ⟨none, others⟩
      · rw [if_neg none, Option.some.injEq] at moved
        subst moved
        exact inv.walk (.keep (by rw [at_]; rfl)) (fun some => absurd some none) nofun
  | acquire id type =>
      simp only [State.next, at_] at moved
      obtain ⟨free, moved⟩ := Option.ite_none_right_eq_some.mp moved
      cases moved
      exact inv.walk (.take free rfl) (fun _ => rfl) fun _ => .inl (by rw [at_]; rfl)
  | init id type =>
      have first : (s.pc c).initialising := by rw [at_]; rfl
      have none : s.queue.entries = Option.none := by
        by_contra some
        rw [inv.filled (Option.isSome_iff_ne_none.mpr some) c] at first
        cases first
      simp only [State.next, at_, HashQueues.init, none, Option.some.injEq] at moved
      subst moved
      refine inv.goto (.keep (by rw [at_]; rfl)) ?_ nofun (fun _ => ⟨rfl, ?_⟩) nofun
      · simp [inv.allocs, none]
      · intro d other
        by_contra second
        exact other (inv.one d c (Bool.not_eq_false _ ▸ second) first)
  | release id type =>
      simp only [State.next, at_, Option.some.injEq] at moved
      subst moved
      have some := inv.isSome_of_proceeds c (by rw [at_]; rfl)
      exact inv.walk (.drop (by rw [at_]; rfl) rfl) (fun none => absurd none some) nofun
  | again id type =>
      simp only [State.next, at_] at moved
      obtain ⟨free, moved⟩ := Option.ite_none_right_eq_some.mp moved
      cases moved
      have some := inv.isSome_of_proceeds c (by rw [at_]; rfl)
      exact inv.walk (.take free rfl) (fun none => absurd none some) nofun
  | search id type =>
      have some := inv.isSome_of_proceeds c (by rw [at_]; rfl)
      simp only [State.next, at_, some] at moved
      obtain ⟨⟨got, queue, store⟩, run, rfl⟩ := Option.map_eq_some_iff.mp moved
      have after := isSome_getLocked run
      have later : (if got = .again then Pc.again id type else .idle).locks = false ∧
          (if got = .again then Pc.again id type else .idle).initialising = false := by
        split <;> exact ⟨rfl, rfl⟩
      refine inv.goto (.drop (by rw [at_]; rfl) later.1) ?_ ?_ (fun _ => ⟨later.2, ?_⟩) ?_
      · rw [inv.allocs]
        simp_all
      · intro none
        simp_all
      · intro d _
        exact inv.filled (Option.isNone_eq_false_iff.mp (Bool.not_eq_true _ ▸ some)) d
      · rw [later.2]
        exact nofun

end Inv

theorem inv_reach {n k : Nat} {s : State n} (run : (machine n k).ReachVia Alone s) : Inv s := by
  apply Machine.ReachVia.invariant _ _ run
  · rintro _ ⟨store, rfl⟩
    exact ⟨rfl, rfl, rfl, fun c => by simp [start, Pc.locks], fun _ _ => rfl, nofun, nofun⟩
  · intro s a t _ inv alone moved
    cases a with
    | get c id type =>
        simp only [machine, State.step] at moved
        obtain ⟨_, moved⟩ := Option.ite_none_left_eq_some.mp moved
        obtain ⟨idle, moved⟩ := Option.ite_none_right_eq_some.mp moved
        cases moved
        exact inv.walk (.keep (by rw [idle]; rfl)) (fun _ => rfl) nofun
    | next c =>
        obtain ⟨_, moved⟩ := Option.ite_none_left_eq_some.mp moved
        exact inv.next alone moved

/-- Lazy initialisation happens once, as long as no client makes the test while another one is
about to allocate the entries. -/
theorem once_of_alone {n k : Nat} {s : State n} (run : (machine n k).ReachVia Alone s) : Once s :=
  (inv_reach run).once

/-- One client after the other. -/
theorem once_of_alone_sample : ∃ s, (machine 2 4).ReachVia Alone s ∧
    s.pc 1 = .search 9 .getForRead ∧ s.allocs = 1 ∧ Once s := by
  have ran : ((machine 2 4).execVia Alone (start 2 fun id => id.toNat)
      [.get 0 5 .getForWrite, .next 0, .next 0, .get 1 9 .getForRead, .next 0, .next 1, .next 0,
        .next 1]).map (fun s => s.pc 1) = some (.search 9 .getForRead) := by decide +kernel
  obtain ⟨s, run, there⟩ := Option.map_eq_some_iff.mp ran
  have reach : (machine 2 4).ReachVia Alone s := Machine.reachVia_of_execVia ⟨_, rfl⟩ run
  have once := once_of_alone reach
  exact ⟨s, reach, there, once.used 1 (by rw [there]; rfl), once⟩

/-- Both clients make the test before one of them has taken the lock. The second one finds
entries in `init`. -/
theorem exists_not_once : ∃ s, (machine 2 4).Reach s ∧ s.allocs = 1 ∧ s.failed ∧ ¬ Once s := by
  have ran : ((machine 2 4).exec (start 2 fun id => id.toNat)
      [.get 0 5 .getForWrite, .get 1 9 .getForRead, .next 0, .next 1, .next 0, .next 0, .next 0,
        .next 1, .next 1]).map (fun s => (s.allocs, s.failed)) = some (1, true) := by decide +kernel
  obtain ⟨s, run, final⟩ := Option.map_eq_some_iff.mp ran
  obtain ⟨allocs, failed⟩ := Prod.mk.inj final
  refine ⟨s, Machine.reachVia_of_execVia ⟨_, rfl⟩ run, allocs, failed, ?_⟩
  intro once
  rw [once.asserted] at failed
  cases failed

end EBBLib.SSACSimpleSharedArray.LazyInit
