import EBBLib.Library.Refinement
import EBBLib.SSAC.ReplicatedTables

/-!
# Clients of the replicated cache

Any number of clients run on the processors and share the cache. A section of the code that
holds the lock of a directory line or of a queue is one step, and so is each access to an entry
outside of such a section. A get for writing is followed by changes of the data and `putback`.
A reader uses the entry that it is given at once.
-/

namespace EBBLib.SSACSimpleReplicatedArray

open SSACSimpleSharedArray (CacheObjectIdSimple CacheEntrySimple GetType PutFlag Store entryAt
  flushes)
open SSACSimpleSharedArray.CacheObjectIdSimple
open SSACSimpleSharedArray.HashQueues (search)

/-- Where a client is. -/
inductive Pc where
  | idle
  /-- In `get`, at the label `again1`. -/
  | getting (id : CacheObjectIdSimple) (type : GetType)
  /-- In `get`, at the label `again2`, with its variable `direntry`. -/
  | missed (id : CacheObjectIdSimple) (type : GetType) (direntry : Option Nat)
  /-- Between a get for writing and `putback`, with the entry at position `j`. -/
  | writing (id : CacheObjectIdSimple) (j : Nat)
  /-- In `flush`, before it takes the lock of queue `q`. -/
  | flushing (q : Nat)
  /-- In `flush`, after it has made the entry at position `j` BUSY, which was for `id`. -/
  | saving (id : CacheObjectIdSimple) (q j : Nat)
  | clearing (id : CacheObjectIdSimple) (q j : Nat)
deriving DecidableEq, Repr

/-- The caches, the backing store and the clients. -/
structure State where
  cache : SSAC
  store : Store
  pc : Nat → Pc

inductive Action where
  | get (c : Nat) (id : CacheObjectIdSimple) (type : GetType)
  /-- A locked section of `get`, which may be made several times. -/
  | attempt (c : Nat)
  /-- `entry->data = v; entry->dirty()`. -/
  | write (c v : Nat)
  | putback (c : Nat) (flag : PutFlag)
  | flush (c : Nat)
  /-- The first locked section of `flush` on a queue. -/
  | scan (c : Nat)
  | save (c : Nat)
  /-- The second one. -/
  | clear (c : Nat)
deriving DecidableEq, Repr

namespace State

-- The processor of each client.
variable (on : Nat → Nat) (s : State)

/-- A client gets somewhere. -/
def goto (c : Nat) (pc : Pc) : State := { s with pc := Function.update s.pc c pc }

/-- What a client in `get` asks for. -/
def asks (c : Nat) : Option (CacheObjectIdSimple × GetType) :=
  match s.pc c with
  | .getting id type => some (id, type)
  | .missed id type _ => some (id, type)
  | _ => none

/-- The section of `get` that a client is about to make. -/
def attempt (c : Nat) : Option (Got × SSAC × Store) :=
  match s.pc c with
  | .getting id type => getFirst s.cache s.store (on c) id type
  | .missed id type direntry => getSecond s.cache s.store (on c) id type direntry
  | _ => none

/-- Where a section of `get` leads to. -/
def after (id : CacheObjectIdSimple) (type : GetType) : Got → Pc
  | .entry j => if type = .getForWrite then .writing id j else .idle
  | .noFree => .idle
  | .again1 => .getting id type
  | .again2 direntry => .missed id type direntry

def step : Action → Option State
  | .get c id type =>
      match s.pc c with
      | .idle => if valid id then some (s.goto c (.getting id type)) else none
      | _ => none
  | .attempt c =>
      (s.asks c).bind fun r =>
        (s.attempt on c).map fun g =>
          { s with cache := g.2.1, store := g.2.2 }.goto c (after r.1 r.2 g.1)
  | .write c v =>
      match s.pc c with
      | .writing id j =>
          let entry := s.cache.slot (on c) (s.cache.home id) j
          let cache := s.cache.setEntry (on c) (s.cache.home id) j
            { entry with data := v, dirty := true }
          some { s with cache }
      | _ => none
  | .putback c flag =>
      match s.pc c with
      | .writing id j =>
          (SSACSimpleReplicatedArray.putback s.cache (on c) (s.cache.home id) j flag).map
            fun cache => { s with cache }.goto c .idle
      | _ => none
  | .flush c =>
      match s.pc c with
      | .idle => some (s.goto c (.flushing 0))
      | _ => none
  | .scan c =>
      match s.pc c with
      | .flushing q =>
          if q < s.cache.numhashqs then
            match (s.cache.queue (on c) q).entries.findIdx? flushes with
            | none => some (s.goto c (.flushing (q + 1)))
            | some j =>
                let ce := s.cache.slot (on c) q j
                let cache := s.cache.setEntry (on c) q j { ce with busy := true }
                some ({ s with cache }.goto c (.saving ce.id q j))
          else some (s.goto c .idle)
      | _ => none
  | .save c =>
      match s.pc c with
      | .saving id q j =>
          let ce := s.cache.slot (on c) q j
          some ({ s with store := Function.update s.store ce.id ce.data }.goto c (.clearing id q j))
      | _ => none
  | .clear c =>
      match s.pc c with
      | .clearing _ q j =>
          let ce := s.cache.slot (on c) q j
          let cache := s.cache.setEntry (on c) q j { ce with dirty := false, busy := false }
          some ({ s with cache }.goto c (.flushing q))
      | _ => none

end State

/-- The caches of `p` processors after the initialisation of all queues, with `n` queues of `a`
entries each. -/
def created (n a p : Nat) : SSAC where
  numproc := p
  numhashqs := n
  associativity := a
  rep _ :=
    { hashqs := fun _ => { count := 0, entries := List.replicate a .new }
      dirlines := fun _ => List.replicate (a * p) .new }

/-- Any backing store, and clients outside of the cache. A run begins with the queues of all
processors initialised. What the first `get` on a queue does is over by then: it looks at
`entries` before it takes the lock, so two clients of one processor that find the queue fresh
both call `init`, and its assertion fails for the second one. -/
def machine (n a p : Nat) (on : Nat → Nat) : Machine State Action where
  init s := s.cache = created n a p ∧ ∀ c, s.pc c = .idle
  step s := s.step on

/-! ### The registers that clients see -/

/-- What a client does with the object of an id. -/
def Pc.role (id : CacheObjectIdSimple) : Pc → Coherence.Role
  | .writing id' _ => if id' = id then .writing else .none
  | .saving id' _ _ => if id' = id then .saving else .none
  | .clearing id' _ _ => if id' = id then .clearing else .none
  | _ => .none

/-- The copies of the object of an id. -/
def State.cell (s : State) (id : CacheObjectIdSimple) : Coherence.Cell Nat Nat Nat where
  copies vp := s.cache.view vp id
  busy := (s.cache.listed id).any DirEntry.busy
  modified := (s.cache.listed id).any DirEntry.modified
  store := s.store id
  role c := (s.pc c).role id

/-- A get is a read of the object or the start of a hold. -/
def given (c v : Nat) : GetType → Coherence.Event Nat Nat
  | .getForRead => .read c v
  | .getForWrite => .acquire c v

/-- What a client is given at the end of a section of `get`. -/
def Got.events (vp c : Nat) (id : CacheObjectIdSimple) (type : GetType) (m : SSAC) :
    Got → List (CacheObjectIdSimple × Coherence.Event Nat Nat)
  | .entry j => [(id, given c (m.slot vp (m.home id) j).data type)]
  | _ => []

/-- The data in the entry that a client is given, or in the one that it puts back. -/
def shows (on : Nat → Nat) (s : State) : Action → State →
    List (CacheObjectIdSimple × Coherence.Event Nat Nat)
  | .attempt c, t =>
      match s.asks c, s.attempt on c with
      | some (id, type), some (got, _) => got.events (on c) c id type t.cache
      | _, _ => []
  | .putback c _, _ =>
      match s.pc c with
      | .writing id j => [(id, .release c (s.cache.slot (on c) (s.cache.home id) j).data)]
      | _ => []
  | _, _ => []

/-- No copy of the object is BUSY because `flush` saves it. -/
def Quiet (c : SSAC) (id : CacheObjectIdSimple) : Prop :=
  ∀ vp < c.numproc, (c.view vp id).any Coherence.Copy.busy = true →
    (c.listed id).any DirEntry.busy = true

instance (c : SSAC) (id : CacheObjectIdSimple) : Decidable (Quiet c id) :=
  inferInstanceAs (Decidable (∀ vp < c.numproc, _ → _))

/-- The variable `direntry` still points to the entry for the object. -/
def Fresh (c : SSAC) (id : CacheObjectIdSimple) (direntry : Option Nat) : Prop :=
  ∀ k ∈ direntry, (c.direntry (c.home id) k).id = id

instance (c : SSAC) (id : CacheObjectIdSimple) (direntry : Option Nat) :
    Decidable (Fresh c id direntry) :=
  inferInstanceAs (Decidable (∀ k ∈ direntry, _))

/-- The variable `direntry` of a client. -/
def Pc.direntry : Pc → Option Nat
  | .missed _ _ direntry => direntry
  | _ => none

/-- The object that a writer is given by the section of `get` that it is about to make. -/
def State.grants (on : Nat → Nat) (s : State) (c : Nat) : Option CacheObjectIdSimple :=
  match s.asks c, s.attempt on c with
  | some (id, .getForWrite), some (.entry _, _) => some id
  | _, _ => none

/-- A writer is not given an object that a `flush` is saving. Nor is it given an entry that
another client of its processor has loaded meanwhile, after the entry of the directory that it
remembers has been used for another object. -/
def Careful (on : Nat → Nat) (s : State) : Action → Prop
  | .attempt c => ∀ id ∈ s.grants on c, Quiet s.cache id ∧
      ((search id (s.cache.queue (on c) (s.cache.home id)).entries).isSome →
        Fresh s.cache id (s.pc c).direntry)
  | _ => True

instance (on : Nat → Nat) (s : State) (a : Action) : Decidable (Careful on s a) :=
  match a with
  | .attempt c =>
      show Decidable (∀ id ∈ s.grants on c, _ ∧ _) from (s.grants on c).decidableForallMem
  | .get .. | .write .. | .putback .. | .flush _ | .scan _ | .save _ | .clear _ => isTrue trivial

end EBBLib.SSACSimpleReplicatedArray
