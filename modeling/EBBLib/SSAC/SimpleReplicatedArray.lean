import EBBLib.Library.Bits
import EBBLib.SSAC.SimpleSharedArray

/-!
# The replicated cache of `SSACSimpleReplicatedArray.C`

Every processor has its own set-associative cache with queues like those of
`SSACSimpleSharedArray.C`. For each queue index there is a directory line, on one of the
processors, which lists the ids that are in a queue with this index together with the
processors that have a copy. A get for writing makes all copies BUSY, `putback` hands the new
data to all of them, and a copy that is evicted is taken out of the directory.

A call returns `none` when an assertion aborts it or when the source dereferences a null
pointer. The queues are initialised and the representatives of all processors exist.
-/

namespace EBBLib.SSACSimpleReplicatedArray

open SSACSimpleSharedArray (CacheObjectIdSimple CacheEntrySimple Store GetType PutFlag entryAt)
open SSACSimpleSharedArray.CacheObjectIdSimple
open SSACSimpleSharedArray.HashQueues (search lruentry)

/-- `DirEntry`, with the bits BUSY and MODIFIED of its flags. -/
structure DirEntry where
  id : CacheObjectIdSimple
  busy : Bool
  modified : Bool
  vpmask : BitVec 64
deriving DecidableEq, Repr

namespace DirEntry

/-- The constructor of `DirEntry`. -/
def new : DirEntry := { id := invalid, busy := false, modified := false, vpmask := 0#64 }

def clearall (d : DirEntry) : DirEntry := { d with busy := false, modified := false }

def addvp (d : DirEntry) (vp : Nat) : DirEntry := { d with vpmask := d.vpmask ||| (1#64 <<< vp) }

def removevp (d : DirEntry) (vp : Nat) : DirEntry :=
  { d with vpmask := d.vpmask &&& ~~~(1#64 <<< vp) }

end DirEntry

/-- `HashQueues`, after `init`. -/
structure HashQueues where
  count : Nat
  entries : List CacheEntrySimple
deriving DecidableEq, Repr

/-- `_hashqs` and the `direntries` of `_dirlines`. -/
structure Rep where
  hashqs : Nat → HashQueues
  dirlines : Nat → List DirEntry

/-- The representatives of all processors, and what they have in common. -/
structure SSAC where
  numproc : Nat
  numhashqs : Nat
  associativity : Nat
  rep : Nat → Rep

/-- Where the line of a queue index is: the processor, and the position in its `_dirlines`. -/
def dirplace (numproc i : Nat) : Nat × Nat := (i % numproc, (i - i % numproc) / numproc)

/-- The lines that the constructor allocates on processor `myvp`. -/
def dirlinesOn (numhashqs numproc myvp : Nat) : Nat :=
  if myvp < numhashqs % numproc then numhashqs / numproc + 1 else numhashqs / numproc

namespace SSAC

variable (c : SSAC)

def queue (vp i : Nat) : HashQueues := (c.rep vp).hashqs i

/-- The entry at a position of a queue. -/
def slot (vp i j : Nat) : CacheEntrySimple := entryAt (c.queue vp i).entries j

/-- The line that `finddirline` finds for an id with the index `i`. -/
def line (i : Nat) : List DirEntry :=
  (c.rep (dirplace c.numproc i).1).dirlines (dirplace c.numproc i).2

def direntry (i k : Nat) : DirEntry := (c.line i).getD k .new

/-- The index of an id. -/
def home (id : CacheObjectIdSimple) : Nat := index id c.numhashqs

def setRep (vp : Nat) (r : Rep) : SSAC := { c with rep := Function.update c.rep vp r }

def setQueue (vp i : Nat) (q : HashQueues) : SSAC :=
  c.setRep vp { c.rep vp with hashqs := Function.update (c.rep vp).hashqs i q }

def setLine (i : Nat) (l : List DirEntry) : SSAC :=
  let (vp, offset) := dirplace c.numproc i
  c.setRep vp { c.rep vp with dirlines := Function.update (c.rep vp).dirlines offset l }

/-- Replace the entry at a position of a queue. -/
def setEntry (vp i j : Nat) (e : CacheEntrySimple) : SSAC :=
  c.setQueue vp i { c.queue vp i with entries := (c.queue vp i).entries.set j e }

/-- Replace the entry at a position of a line. -/
def setDir (i k : Nat) (d : DirEntry) : SSAC := c.setLine i ((c.line i).set k d)

end SSAC

/-- `lookupid`: the position of the entry for an id. -/
def lookupid (id : CacheObjectIdSimple) (l : List DirEntry) : Option Nat :=
  l.findIdx? fun d => id = d.id

/-- `adddirentry` in the line with the index `i`. -/
def adddirentry (c : SSAC) (i : Nat) (id : CacheObjectIdSimple) (vp : Nat) : Option SSAC :=
  ((c.line i).findIdx? fun d => !valid d.id).map fun k =>
    c.setDir i k (({ c.direntry i k with id } : DirEntry).clearall.addvp vp)

/-- `getremotecopyfromdir`. The result is dereferenced by the caller. -/
def getremotecopyfromdir (c : SSAC) (myvp : Nat) (d : DirEntry) : Option CacheEntrySimple :=
  match Bits.set d.vpmask with
  | [] => none
  | vp :: _ =>
      if vp = myvp then none
      else (search d.id (c.queue vp (c.home d.id)).entries).map (c.slot vp (c.home d.id))

/-- The loop over the queues of the processors in a mask, which changes the entry for the id
in each of them. -/
def onCopies (f : CacheEntrySimple → CacheEntrySimple) (id : CacheObjectIdSimple) :
    List Nat → SSAC → Option SSAC
  | [], c => some c
  | vp :: vps, c =>
      (search id (c.queue vp (c.home id)).entries).bind fun j =>
        onCopies f id vps (c.setEntry vp (c.home id) j (f (c.slot vp (c.home id) j)))

/-- The mask without the calling processor. -/
def others (d : DirEntry) (myvp : Nat) : List Nat := Bits.set (d.vpmask &&& ~~~(1#64 <<< myvp))

/-- `setbusyonallcopiesindir` for the entry at position `k` of line `i` of the directory and
the local copy at position `j` of queue `q`. -/
def setbusyonallcopiesindir (c : SSAC) (myvp i k q j : Nat) : Option SSAC :=
  let d := c.direntry i k
  (onCopies (fun e => { e with busy := true }) d.id (others d myvp) c).map fun c =>
    (c.setEntry myvp q j { c.slot myvp q j with busy := true }).setDir i k { d with busy := true }

/-- `updateandclearbusyonallcopiesindir`. -/
def updateandclearbusyonallcopiesindir (c : SSAC) (myvp i k q j : Nat) : Option SSAC :=
  let d := c.direntry i k
  let data := (c.slot myvp q j).data
  (onCopies (fun e => { e with data, busy := false }) d.id (others d myvp) c).map fun c =>
    (c.setEntry myvp q j { c.slot myvp q j with busy := false }).setDir i k
      { d with busy := false }

/-- `removefromdir`, with its result. -/
def removefromdir (c : SSAC) (id : CacheObjectIdSimple) (vp : Nat) (dirty : Bool) :
    Option (Bool × SSAC) :=
  let i := c.home id
  (lookupid id (c.line i)).map fun k =>
    let d := c.direntry i k
    let d := { d with modified := d.modified || dirty }.removevp vp
    if d.vpmask = 0#64 then (d.modified, c.setDir i k { d with id := invalid }.clearall)
    else (false, c.setDir i k d)

/-- What a locked section of `get` leads to. The labels `again1` and `again2` are those of the
source, the second with the variable `direntry`. -/
inductive Got where
  | entry (j : Nat)
  | noFree
  | again1
  | again2 (direntry : Option Nat)
deriving DecidableEq, Repr

/-- A get for writing makes the copies BUSY, in the entry `direntry` of the directory or, if
there is none yet, in the one for the id. -/
def own (c : SSAC) (myvp : Nat) (id : CacheObjectIdSimple) (type : GetType) (j : Nat)
    (direntry : Option Nat) : Option SSAC :=
  let i := c.home id
  match type with
  | .getForRead => some c
  | .getForWrite => (direntry.or (lookupid id (c.line i))).bind fun k =>
      setbusyonallcopiesindir c myvp i k i j

/-- Count the access. -/
def touch (c : SSAC) (myvp i j : Nat) : Option SSAC :=
  let count := ((c.queue myvp i).count + 1) % 2 ^ 64
  if count = 0 then none
  else
    some (c.setQueue myvp i
      { count, entries := (c.queue myvp i).entries.set j
          { c.slot myvp i j with lastused := count } })

/-- The end of `get` with the local entry at position `j`. -/
def hand (c : SSAC) (myvp : Nat) (id : CacheObjectIdSimple) (type : GetType) (j : Nat)
    (direntry : Option Nat) : Option SSAC :=
  (own c myvp id type j direntry).bind fun c => touch c myvp (c.home id) j

/-- The local entry at position `j` is taken out of the directory, and its data is saved if it
was the last copy of an object that was modified. -/
def clean (c : SSAC) (store : Store) (myvp i j : Nat) : Option (SSAC × Store) :=
  let ep := c.slot myvp i j
  if valid ep.id then
    (removefromdir c ep.id myvp ep.dirty).map fun (clean, c) =>
      (c, if clean then Function.update store ep.id ep.data else store)
  else some (c, store)

/-- The local entry at position `j` becomes a copy of another one or of the backing store. -/
def fill (c : SSAC) (store : Store) (myvp : Nat) (id : CacheObjectIdSimple) (j : Nat)
    (direntry : Option Nat) : Option SSAC :=
  let i := c.home id
  let ep := { c.slot myvp i j with busy := false, dirty := false, id }
  match direntry with
  | some k =>
      (getremotecopyfromdir (c.setEntry myvp i j ep) myvp (c.direntry i k)).map fun copy =>
        (c.setEntry myvp i j { ep with data := copy.data }).setDir i k
          ((c.direntry i k).addvp myvp)
  | none => adddirentry (c.setEntry myvp i j { ep with data := store id }) i id myvp

/-- The local miss of `get`, under the locks of the line and the queue. -/
def miss (c : SSAC) (store : Store) (myvp : Nat) (id : CacheObjectIdSimple) (type : GetType) :
    Option (Got × SSAC × Store) :=
  let i := c.home id
  let direntry := lookupid id (c.line i)
  if direntry.any fun k => (c.direntry i k).busy then some (.again2 direntry, c, store)
  else
    match lruentry (c.queue myvp i).entries with
    | none => some (.noFree, c, store)
    | some j =>
        (clean c store myvp i j).bind fun (c, store) =>
          (fill c store myvp id j direntry).bind fun c =>
            (hand c myvp id type j direntry).map fun c => (.entry j, c, store)

/-- `get` from the label `again1` on. A get for reading takes only the lock of the queue and,
after a miss, goes on at `again2`. -/
def getFirst (c : SSAC) (store : Store) (myvp : Nat) (id : CacheObjectIdSimple) (type : GetType) :
    Option (Got × SSAC × Store) :=
  match search id (c.queue myvp (c.home id)).entries with
  | some j =>
      if (c.slot myvp (c.home id) j).busy then some (.again1, c, store)
      else (hand c myvp id type j none).map fun c => (.entry j, c, store)
  | none =>
      match type with
      | .getForRead => some (.again2 none, c, store)
      | .getForWrite => miss c store myvp id type

/-- `get` from the label `again2` on. -/
def getSecond (c : SSAC) (store : Store) (myvp : Nat) (id : CacheObjectIdSimple) (type : GetType)
    (direntry : Option Nat) : Option (Got × SSAC × Store) :=
  match search id (c.queue myvp (c.home id)).entries with
  | some j =>
      if (c.slot myvp (c.home id) j).busy then some (.again2 direntry, c, store)
      else (hand c myvp id type j direntry).map fun c => (.entry j, c, store)
  | none => miss c store myvp id type

/-- `putback` of the entry at position `j` of queue `q`. -/
def putback (c : SSAC) (myvp q j : Nat) (flag : PutFlag) : Option SSAC :=
  let entry := c.slot myvp q j
  let i := c.home entry.id
  let lastused := if flag = .keep then (c.queue myvp i).count else 0
  let c := c.setEntry myvp q j { entry with lastused }
  (lookupid entry.id (c.line i)).bind fun k =>
    updateandclearbusyonallcopiesindir c myvp i k q j

end EBBLib.SSACSimpleReplicatedArray
