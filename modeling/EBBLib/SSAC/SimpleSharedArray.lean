import Mathlib.Data.List.Basic
import Mathlib.Logic.Function.Basic
import Mathlib.Tactic.Ring

/-!
# The set-associative cache of `SSACSimpleSharedArray.C`

The cache has `_numhashqs` queues of `_associativity` entries, allocated on the first
`get` of an id of the queue. An entry is BUSY while a writer holds it and DIRTY while
its data is newer than the backing store. `load` and `save` read and write a backing
store indexed by ids.

A call returns `none` when an assertion aborts it or when the source dereferences
`entries` of a queue that is not initialised.
-/

namespace EBBLib.SSACSimpleSharedArray

/-- `CacheObjectIdSimple`, which wraps an `unsigned int`. -/
abbrev CacheObjectIdSimple := UInt32

namespace CacheObjectIdSimple

/-- `INVALID`. -/
def invalid : CacheObjectIdSimple := 0xffffffff

/-- `valid`. -/
def valid (id : CacheObjectIdSimple) : Bool := id ≠ invalid

/-- `index`. -/
def index (id : CacheObjectIdSimple) (max : Nat) : Nat := id.toNat % max

end CacheObjectIdSimple

open CacheObjectIdSimple

/-- The data that `load` returns and `save` stores, by id. -/
abbrev Store := CacheObjectIdSimple → Nat

/-- `CacheEntrySimple`, with the bits BUSY and DIRTY of its flags. -/
structure CacheEntrySimple where
  id : CacheObjectIdSimple
  busy : Bool
  dirty : Bool
  lastused : Nat
  data : Nat
deriving DecidableEq, Repr

/-- The constructor of `CacheEntrySimple`. -/
def CacheEntrySimple.new : CacheEntrySimple :=
  { id := invalid, busy := false, dirty := false, lastused := 0, data := 0 }

/-- `HashQueues`. The entries are `none` until `init`. -/
structure HashQueues where
  count : Nat
  entries : Option (List CacheEntrySimple)
deriving DecidableEq, Repr

namespace HashQueues

/-- The constructor of `HashQueues`. -/
def new : HashQueues := { count := 0, entries := none }

/-- `init`, which asserts that there are no entries yet. -/
def init (q : HashQueues) (numentries : Nat) : Option HashQueues :=
  match q.entries with
  | none => some { q with entries := some (List.replicate numentries .new) }
  | some _ => none

/-- `search`: the position of the first entry for `id`. -/
def search (id : CacheObjectIdSimple) : List CacheEntrySimple → Option Nat
  | [] => none
  | e :: es => if id = e.id then some 0 else (search id es).map (· + 1)

/-- The loop of `lruentry` from position `i` on, with the best entry so far. -/
def lruFrom : Nat → Option (Nat × Nat) → List CacheEntrySimple → Option Nat
  | _, ep, [] => ep.map Prod.fst
  | i, ep, e :: es =>
      if e.busy then lruFrom (i + 1) ep es
      else
        match ep with
        | none => if !valid e.id then some i else lruFrom (i + 1) (some (i, e.lastused)) es
        | some (_, lastused) =>
            if e.lastused < lastused then lruFrom (i + 1) (some (i, e.lastused)) es
            else lruFrom (i + 1) ep es

/-- `lruentry`. -/
def lruentry (entries : List CacheEntrySimple) : Option Nat := lruFrom 0 none entries

end HashQueues

/-- `_numhashqs`, `_associativity` and `_hashqs`. -/
structure SSAC where
  numhashqs : Nat
  associativity : Nat
  hashqs : Nat → HashQueues

/-- Replace one queue. -/
def SSAC.setQueue (c : SSAC) (i : Nat) (q : HashQueues) : SSAC :=
  { c with hashqs := Function.update c.hashqs i q }

/-- `gettype`. -/
inductive GetType where
  | getForRead
  | getForWrite
deriving DecidableEq, Repr

/-- `putflag`. -/
inductive PutFlag where
  | keep
  | discard
deriving DecidableEq, Repr

/-- What the locked section of `get` does: it finds or fills an entry, there is no
free entry, or the entry is BUSY and `get` tries again. -/
inductive Got where
  | entry (i : Nat)
  | noFree
  | again
deriving DecidableEq, Repr

/-- The entry at a position. -/
def entryAt (es : List CacheEntrySimple) (i : Nat) : CacheEntrySimple := es.getD i .new

/-- The tail that hit and miss share: count the access and mark the entry. -/
def access (type : GetType) (i : Nat) (es : List CacheEntrySimple) (count : Nat) :
    Option HashQueues :=
  let count := (count + 1) % 2 ^ 64
  if count = 0 then none
  else
    let ep := entryAt es i
    let ep := { ep with lastused := count, busy := ep.busy || type = .getForWrite }
    some { count, entries := some (es.set i ep) }

/-- `get` from `acquireLock` to `releaseLock`. -/
def getLocked (id : CacheObjectIdSimple) (type : GetType) (store : Store) (q : HashQueues) :
    Option (Got × HashQueues × Store) :=
  match q.entries with
  | none => none
  | some es =>
      match HashQueues.search id es with
      | some i =>
          if (entryAt es i).busy then some (.again, q, store)
          else (access type i es q.count).map fun q => (.entry i, q, store)
      | none =>
          match HashQueues.lruentry es with
          | some i =>
              let ep := entryAt es i
              let store := if ep.dirty then Function.update store ep.id ep.data else store
              let ep := { ep with dirty := false, id := id, data := store id }
              (access type i (es.set i ep) q.count).map fun q => (.entry i, q, store)
          | none => some (.noFree, q, store)

/-- The initialisation of a queue in `get`. -/
def ensure (q : HashQueues) (associativity : Nat) : Option HashQueues :=
  if q.entries.isNone then q.init associativity else some q

/-- One attempt of `get`. -/
def get (c : SSAC) (store : Store) (id : CacheObjectIdSimple) (type : GetType) :
    Option (Got × SSAC × Store) :=
  if valid id then
    let i := index id c.numhashqs
    ((ensure (c.hashqs i) c.associativity).bind (getLocked id type store)).map
      fun (got, q, store) => (got, c.setQueue i q, store)
  else none

/-- Change the entry at position `i` of a queue. -/
def modifyEntry (c : SSAC) (qi i : Nat) (f : CacheEntrySimple → CacheEntrySimple) :
    Option SSAC :=
  (c.hashqs qi).entries.map fun es =>
    c.setQueue qi { c.hashqs qi with entries := some (es.set i (f (entryAt es i))) }

/-- `entry->data = v; entry->dirty()` by the holder of an entry. -/
def dirty (c : SSAC) (qi i v : Nat) : Option SSAC :=
  modifyEntry c qi i fun e => { e with data := v, dirty := true }

/-- `putback` of the entry at position `i` of queue `qi`. -/
def putback (c : SSAC) (qi i : Nat) (flag : PutFlag) : Option SSAC :=
  (c.hashqs qi).entries.bind fun es =>
    let hashq := c.hashqs (index (entryAt es i).id c.numhashqs)
    if hashq.entries.isSome then
      modifyEntry c qi i fun e =>
        { e with lastused := if flag = .keep then hashq.count else 0, busy := false }
    else none

/-- The test of the inner loop of `flush`. -/
def flushes (e : CacheEntrySimple) : Bool := !e.busy && valid e.id && e.dirty

/-- The inner loop of `flush`, which starts again after each entry that it saves. The
fuel bounds the number of times that it starts. -/
def flushQueue : Nat → List CacheEntrySimple → Store → Option (List CacheEntrySimple × Store)
  | 0, _, _ => none
  | fuel + 1, es, store =>
      match es.findIdx? flushes with
      | none => some (es, store)
      | some j =>
          let ce := entryAt es j
          flushQueue fuel (es.set j { ce with dirty := false, busy := false })
            (Function.update store ce.id ce.data)

/-- `flush` of the queue at position `i`. -/
def flushAt (c : SSAC) (store : Store) (i : Nat) : Option (SSAC × Store) :=
  match (c.hashqs i).entries with
  | none => some (c, store)
  | some es =>
      (flushQueue (es.length + 1) es store).map fun (es, store) =>
        (c.setQueue i { c.hashqs i with entries := some es }, store)

/-- The outer loop of `flush` over `todo` queues from `i` on. -/
def flushFrom : Nat → Nat → SSAC → Store → Option (SSAC × Store)
  | 0, _, c, store => some (c, store)
  | todo + 1, i, c, store => (flushAt c store i).bind fun (c, store) =>
      flushFrom todo (i + 1) c store

/-- `flush`. -/
def flush (c : SSAC) (store : Store) : Option (SSAC × Store) := flushFrom c.numhashqs 0 c store

end EBBLib.SSACSimpleSharedArray
