import EBBLib.Library.Transition
import EBBLib.SSAC.Slots

/-!
# Concurrent clients of a cache

Any number of clients share the cache, whose queues are initialised. A section of the
code that holds the lock of a queue is one step, and so is each access to an entry
outside of such a section. A `get` that finds no free entry returns what a successful
one returns, so a client may go on with the entry that it had before.
-/

namespace EBBLib.SSACSimpleSharedArray.Clients

open CacheObjectIdSimple

/-- Where a client is. -/
inductive Pc where
  | idle
  /-- In `get`, before the section that holds the lock. -/
  | getting (id : CacheObjectIdSimple) (type : GetType)
  /-- Back from a `get` that has found no free entry. -/
  | refused (id : CacheObjectIdSimple) (type : GetType)
  /-- Between a `get` for writing and `putback`. -/
  | writing (id : CacheObjectIdSimple)
  /-- Between a `get` for reading and the read of `entry->data`. -/
  | reading (id : CacheObjectIdSimple)
  /-- In `flush`, before it takes the lock of queue `q`. -/
  | flushing (q : Nat)
  /-- In `flush`, after it has made an entry BUSY and released the lock. -/
  | saving (q j : Nat)
  | clearing (q j : Nat)
deriving DecidableEq, Repr

/-- A client and its variable `entry`, a queue and a position there. -/
structure Client where
  pc : Pc
  entry : Option (Nat × Nat)
deriving DecidableEq, Repr

/-- The cache, the store and the clients. Two fields record what has happened: `latest` is
the value put back dirty last for an id, until a writer of the id overwrites it, and `log`
lists the values that were loaded or assigned for each id. -/
structure State where
  cache : SSAC
  store : Store
  client : Nat → Client
  latest : CacheObjectIdSimple → Option Nat
  log : List (CacheObjectIdSimple × Nat)

inductive Action where
  | get (c : Nat) (id : CacheObjectIdSimple) (type : GetType)
  /-- The locked section of `get`, which may be made several times. -/
  | attempt (c : Nat)
  /-- A client that was refused goes on as if it had been given an entry. -/
  | goOn (c : Nat)
  | giveUp (c : Nat)
  /-- `entry->data = v`. -/
  | assign (c v : Nat)
  | dirty (c : Nat)
  | putback (c : Nat) (flag : PutFlag)
  /-- `v = entry->data`. -/
  | read (c : Nat)
  | flush (c : Nat)
  /-- The first locked section of `flush` on a queue. -/
  | scan (c : Nat)
  | save (c : Nat)
  /-- The second one. -/
  | clear (c : Nat)
deriving DecidableEq, Repr

/-- What a client does with an entry that it got. -/
def Pc.got (id : CacheObjectIdSimple) : GetType → Pc
  | .getForRead => .reading id
  | .getForWrite => .writing id

namespace State

variable (s : State)

/-- A client gets somewhere. -/
def goto (c : Nat) (pc : Pc) : State :=
  { s with client := Function.update s.client c { s.client c with pc } }

/-- `get` hands out an entry. -/
def hand (c : Nat) (id : CacheObjectIdSimple) (type : GetType) (handle : Nat × Nat) : State :=
  { s with client := Function.update s.client c ⟨.got id type, some handle⟩ }

/-- The id is in no entry of its queue, so that a `get` loads it. -/
def missing (id : CacheObjectIdSimple) : Bool :=
  (HashQueues.search id ((s.cache.hashqs (index id s.cache.numhashqs)).entries.getD [])).isNone

def step : Action → Option State
  | .get c id type =>
      match (s.client c).pc with
      | .idle => if valid id then some (s.goto c (.getting id type)) else none
      | _ => none
  | .attempt c =>
      match (s.client c).pc with
      | .getting id type =>
          (SSACSimpleSharedArray.get s.cache s.store id type).map fun (got, cache, store) =>
            match got with
            | .again => { s with cache, store }
            | .noFree => { s with cache, store }.goto c (.refused id type)
            | .entry i =>
                let log := if s.missing id then (id, store id) :: s.log else s.log
                { s with cache, store, log }.hand c id type (index id cache.numhashqs, i)
      | _ => none
  | .goOn c =>
      match s.client c with
      | ⟨.refused id type, some _⟩ => some (s.goto c (.got id type))
      | _ => none
  | .giveUp c =>
      match (s.client c).pc with
      | .refused .. => some (s.goto c .idle)
      | _ => none
  | .assign c v =>
      match s.client c with
      | ⟨.writing id, some (q, j)⟩ =>
          (modifyEntry s.cache q j fun e => { e with data := v }).map fun cache =>
            { s with cache, latest := Function.update s.latest id none, log := (id, v) :: s.log }
      | _ => none
  | .dirty c =>
      match s.client c with
      | ⟨.writing _, some (q, j)⟩ =>
          (modifyEntry s.cache q j fun e => { e with dirty := true }).map fun cache =>
            { s with cache }
      | _ => none
  | .putback c flag =>
      match s.client c with
      | ⟨.writing id, some (q, j)⟩ =>
          (SSACSimpleSharedArray.putback s.cache q j flag).map fun cache =>
            let e := s.cache.slot q j
            let latest := if e.dirty then Function.update s.latest id (some e.data) else s.latest
            { s with cache, latest }.goto c .idle
      | _ => none
  | .read c =>
      match s.client c with
      | ⟨.reading _, some _⟩ => some (s.goto c .idle)
      | _ => none
  | .flush c =>
      match (s.client c).pc with
      | .idle => some (s.goto c (.flushing 0))
      | _ => none
  | .scan c =>
      match (s.client c).pc with
      | .flushing q =>
          if q < s.cache.numhashqs then
            match (s.cache.hashqs q).entries with
            | none => some (s.goto c (.flushing (q + 1)))
            | some es =>
                match es.findIdx? flushes with
                | none => some (s.goto c (.flushing (q + 1)))
                | some j =>
                    (modifyEntry s.cache q j fun e => { e with busy := true }).map fun cache =>
                      { s with cache }.goto c (.saving q j)
          else some (s.goto c .idle)
      | _ => none
  | .save c =>
      match (s.client c).pc with
      | .saving q j =>
          let ce := s.cache.slot q j
          some ({ s with store := Function.update s.store ce.id ce.data }.goto c (.clearing q j))
      | _ => none
  | .clear c =>
      match (s.client c).pc with
      | .clearing q j =>
          (modifyEntry s.cache q j fun e => { e with dirty := false, busy := false }).map
            fun cache => { s with cache }.goto c (.flushing q)
      | _ => none

end State

/-- The cache after the initialisation of all queues, with `n` queues of `a` entries. -/
def initialised (n a : Nat) : SSAC where
  numhashqs := n
  associativity := a
  hashqs _ := { count := 0, entries := some (List.replicate a .new) }

/-- Any store, and clients that have no entry. -/
def start (n a : Nat) (store : Store) : State where
  cache := initialised n a
  store := store
  client _ := ⟨.idle, none⟩
  latest _ := none
  log := []

def machine (n a : Nat) : Machine State Action where
  init s := ∃ store, s = start n a store
  step := State.step

/-- The client has the entry as a writer. -/
def Client.Writes (c : Client) (q j : Nat) : Prop :=
  (∃ id, c.pc = .writing id) ∧ c.entry = some (q, j)

/-- The client has made the entry BUSY, as a writer or in `flush`. -/
def Client.Holds (c : Client) (q j : Nat) : Prop :=
  c.Writes q j ∨ c.pc = .saving q j ∨ c.pc = .clearing q j

/-- The client is a writer that was refused. -/
def Pc.refusedWrite : Pc → Bool
  | refused _ .getForWrite => true
  | _ => false

/-- No writer goes on after it was refused. -/
def Careful (s : State) : Action → Prop
  | .goOn c => (s.client c).pc.refusedWrite = false
  | _ => True

instance (s : State) (a : Action) : Decidable (Careful s a) :=
  match a with
  | .goOn c => inferInstanceAs (Decidable ((s.client c).pc.refusedWrite = false))
  | .get .. | .attempt _ | .giveUp _ | .assign .. | .dirty _ | .putback .. | .read _ | .flush _
  | .scan _ | .save _ | .clear _ => isTrue trivial

/-- The step is a miss that re-uses an entry. -/
def reuses (q j : Nat) (s : State) : Action → Bool
  | .attempt c =>
      match (s.client c).pc with
      | .getting id _ =>
          index id s.cache.numhashqs = q && s.missing id &&
            HashQueues.lruentry ((s.cache.hashqs q).entries.getD []) = some j
      | _ => false
  | _ => false

/-- What holds should guarantee. -/
structure Exclusive (s : State) : Prop where
  one : ∀ c d q j, (s.client c).Holds q j → (s.client d).Holds q j → c = d
  busy : ∀ c q j, (s.client c).Holds q j → (s.cache.slot q j).busy
  /-- A writer has the entry of its id. -/
  labelled : ∀ c id q j, s.client c = ⟨.writing id, some (q, j)⟩ → (s.cache.slot q j).id = id
  /-- The entry of a holder keeps its id. -/
  stays : ∀ a t, Careful s a → s.step a = some t → ∀ c q j, (s.client c).Holds q j →
    (t.cache.slot q j).id = (s.cache.slot q j).id
  unwritten : ∀ c q j, (s.client c).pc = .saving q j → ∀ d, ¬ (s.client d).Writes q j
  /-- There is one entry for an id at most. -/
  unique : ∀ q j p k, valid (s.cache.slot q j).id →
    (s.cache.slot q j).id = (s.cache.slot p k).id → (q, j) = (p, k)
  /-- No update is lost. -/
  kept : ∀ id v, s.latest id = some v → s.store id = v ∨
    ∃ q j, (s.cache.slot q j).id = id ∧ (s.cache.slot q j).dirty ∧ (s.cache.slot q j).data = v

end EBBLib.SSACSimpleSharedArray.Clients
