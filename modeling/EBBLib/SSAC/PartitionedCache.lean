import EBBLib.SSAC.SimplePartitionedArray
import EBBLib.SSAC.Transparent

/-!
# The partitioned cache is the shared cache

The representatives of `SSACSimplePartitionedArray.C` have the queues of their processors, and
`get` and `putback` find the queue of an id on the processor where `partition` places it. The
rest of the two functions is as in `SSACSimpleSharedArray.C`. When the placement is valid, it
cannot be seen: every sequence of accesses, made on any processors, leads to the results and
to the queues that it leads to with the shared cache, whether or not it completes.
-/

namespace EBBLib.SSACSimplePartitionedArray

open SSACSimpleSharedArray (CacheObjectIdSimple CacheEntrySimple HashQueues Store GetType PutFlag
  Got entryAt ensure getLocked)
open SSACSimpleSharedArray.CacheObjectIdSimple

/-- The representatives, which are made on the first use of a processor, with their `_hashqs`. -/
structure SSAC where
  numproc : Nat
  numhashqs : Nat
  associativity : Nat
  rep : Nat → Option (Nat → HashQueues)

namespace SSAC

variable (c : SSAC)

def queue (vp offset : Nat) : HashQueues := (c.rep vp).elim .new (· offset)

def setQueue (vp offset : Nat) (q : HashQueues) : SSAC :=
  { c with rep := Function.update c.rep vp ((c.rep vp).map fun r => Function.update r offset q) }

/-- The representative of a processor is made by a call there, and by `createRepOn`. -/
def createRepOn (vp : Nat) : SSAC :=
  { c with rep := Function.update c.rep vp (some ((c.rep vp).getD fun _ => .new)) }

/-- The place of an index, if there is a processor and a queue in this place. -/
def place (index : Nat) : Option (Nat × Nat) :=
  (partition c.numhashqs c.numproc index).filter fun (vp, offset) =>
    vp < c.numproc && offset < queuesOn c.numhashqs c.numproc vp

end SSAC

/-- One attempt of `get`, called on processor `myvp`. -/
def get (c : SSAC) (store : Store) (myvp : Nat) (id : CacheObjectIdSimple) (type : GetType) :
    Option (Got × SSAC × Store) :=
  if valid id then
    (c.place (index id c.numhashqs)).bind fun (vp, offset) =>
      let c := (c.createRepOn myvp).createRepOn vp
      ((ensure (c.queue vp offset) c.associativity).bind (getLocked id type store)).map
        fun (got, q, store) => (got, c.setQueue vp offset q, store)
  else none

/-- Change the entry at position `i` of the queue with the index `qi`. -/
def modifyEntry (c : SSAC) (qi i : Nat) (f : CacheEntrySimple → CacheEntrySimple) : Option SSAC :=
  (c.place qi).bind fun (vp, offset) =>
    (c.queue vp offset).entries.map fun es =>
      c.setQueue vp offset { c.queue vp offset with entries := some (es.set i (f (entryAt es i))) }

/-- `putback` of the entry at position `i` of the queue with the index `qi`, called on
processor `myvp`. The representative of another processor must be there. -/
def putback (c : SSAC) (myvp qi i : Nat) (flag : PutFlag) : Option SSAC :=
  let c := c.createRepOn myvp
  (c.place qi).bind fun (vp, offset) =>
    (c.queue vp offset).entries.bind fun es =>
      (c.place (index (entryAt es i).id c.numhashqs)).bind fun (vp, offset) =>
        let hashq := c.queue vp offset
        if (c.rep vp).isSome && hashq.entries.isSome then
          modifyEntry c qi i fun e =>
            { e with lastused := if flag = .keep then hashq.count else 0, busy := false }
        else none

/-- No representative yet. -/
def create (numhashqs associativity numproc : Nat) : SSAC :=
  { numproc, numhashqs, associativity, rep := fun _ => none }

/-! ### Accesses of clients -/

/-- A section of `get` or `putback`, or an access to the entry at a position of the queue for
an id. -/
inductive Access where
  | get (id : CacheObjectIdSimple) (type : GetType)
  | assign (id : CacheObjectIdSimple) (i v : Nat)
  | dirty (id : CacheObjectIdSimple) (i : Nat)
  | putback (id : CacheObjectIdSimple) (i : Nat) (flag : PutFlag)
deriving DecidableEq, Repr

/-- An access on processor `myvp`, with the result of `get`. -/
def step (s : SSAC × Store) : Nat × Access → Option ((SSAC × Store) × Option Got)
  | (myvp, .get id type) => (get s.1 s.2 myvp id type).map fun (got, s) => (s, some got)
  | (_, .assign id i v) =>
      (modifyEntry s.1 (index id s.1.numhashqs) i fun e => { e with data := v }).map
        fun c => ((c, s.2), none)
  | (_, .dirty id i) =>
      (modifyEntry s.1 (index id s.1.numhashqs) i fun e => { e with dirty := true }).map
        fun c => ((c, s.2), none)
  | (myvp, .putback id i flag) =>
      (putback s.1 myvp (index id s.1.numhashqs) i flag).map fun c => ((c, s.2), none)

/-- The same access to the shared cache. -/
def sharedStep (s : SSACSimpleSharedArray.SSAC × Store) :
    Access → Option ((SSACSimpleSharedArray.SSAC × Store) × Option Got)
  | .get id type =>
      (SSACSimpleSharedArray.get s.1 s.2 id type).map fun (got, s) => (s, some got)
  | .assign id i v =>
      (SSACSimpleSharedArray.modifyEntry s.1 (index id s.1.numhashqs) i
        fun e => { e with data := v }).map fun c => ((c, s.2), none)
  | .dirty id i =>
      (SSACSimpleSharedArray.modifyEntry s.1 (index id s.1.numhashqs) i
        fun e => { e with dirty := true }).map fun c => ((c, s.2), none)
  | .putback id i flag =>
      (SSACSimpleSharedArray.putback s.1 (index id s.1.numhashqs) i flag).map
        fun c => ((c, s.2), none)

/-- The queues in the order of their indices. -/
def SSAC.shared (c : SSAC) : SSACSimpleSharedArray.SSAC where
  numhashqs := c.numhashqs
  associativity := c.associativity
  hashqs i :=
    if i < c.numhashqs then (c.place i).elim .new fun (vp, offset) => c.queue vp offset else .new

section

variable {c : SSAC} {vp vp' offset offset' i qi : Nat} {q : HashQueues} {id : CacheObjectIdSimple}

/-! ### Reading after a change -/

@[simp] theorem createRepOn_queue : (c.createRepOn vp).queue vp' offset = c.queue vp' offset := by
  by_cases same : vp' = vp
  · subst same
    cases there : c.rep vp' <;> simp [SSAC.createRepOn, SSAC.queue, there]
  · simp [SSAC.createRepOn, SSAC.queue, same]

@[simp] theorem createRepOn_numhashqs : (c.createRepOn vp).numhashqs = c.numhashqs := rfl

@[simp] theorem createRepOn_place : (c.createRepOn vp).place i = c.place i := rfl

@[simp] theorem createRepOn_shared : (c.createRepOn vp).shared = c.shared := by
  simp only [SSAC.shared, createRepOn_place, createRepOn_queue]
  rfl

theorem createRepOn_isSome : ((c.createRepOn vp).rep vp).isSome := by
  simp [SSAC.createRepOn]

theorem setQueue_queue (there : (c.rep vp).isSome) : (c.setQueue vp offset q).queue vp' offset' =
    if vp' = vp ∧ offset' = offset then q else c.queue vp' offset' := by
  obtain ⟨r, there⟩ := Option.isSome_iff_exists.mp there
  by_cases same : vp' = vp
  · subst same
    by_cases at_ : offset' = offset <;> simp [SSAC.setQueue, SSAC.queue, there, at_]
  · simp [SSAC.setQueue, SSAC.queue, same]

/-- A queue with entries is in a representative that is there. -/
theorem isSome_of_entries (present : (c.queue vp offset).entries.isSome) : (c.rep vp).isSome := by
  cases there : c.rep vp with
  | none =>
      rw [SSAC.queue, there] at present
      cases present
  | some r => rfl

/-- The placement of the queues is valid. -/
def SSAC.Good (c : SSAC) : Prop := 0 < c.numhashqs ∧ Placed c.numhashqs c.numproc

theorem place_some (good : c.Good) (inside : i < c.numhashqs) :
    ∃ vp offset, c.place i = some (vp, offset) := by
  obtain ⟨vp, offset, run, vpBound, bound⟩ := good.2.allocated i inside
  exact ⟨vp, offset, by simp [SSAC.place, run, vpBound, bound]⟩

/-- Two indices never have the same place. -/
theorem place_inj {i' : Nat} (good : c.Good) (inside : i < c.numhashqs) (inside' : i' < c.numhashqs)
    (same : c.place i = c.place i') : i = i' := by
  obtain ⟨vp, offset, there⟩ := place_some good inside
  have first := (Option.filter_eq_some_iff.mp there).1
  have second := (Option.filter_eq_some_iff.mp (same.symm.trans there)).1
  exact good.2.distinct i inside i' inside' (first.trans second.symm)

/-! ### Each function commutes -/

theorem shared_queue (inside : i < c.numhashqs) (there : c.place i = some (vp, offset)) :
    c.shared.hashqs i = c.queue vp offset := by
  simp [SSAC.shared, inside, there]

theorem shared_setQueue (good : c.Good) (inside : i < c.numhashqs)
    (there : c.place i = some (vp, offset)) (made : (c.rep vp).isSome) :
    (c.setQueue vp offset q).shared = c.shared.setQueue i q := by
  have there' : (c.setQueue vp offset q).place i = some (vp, offset) := there
  refine congrArg (SSACSimpleSharedArray.SSAC.mk c.numhashqs c.associativity) (funext fun j => ?_)
  by_cases same : j = i
  · subst same
    rw [Function.update_self]
    have inside : j < (c.setQueue vp offset q).numhashqs := inside
    refine (shared_queue inside there').trans ?_
    rw [setQueue_queue made, if_pos ⟨rfl, rfl⟩]
  · rw [Function.update_of_ne same]
    by_cases inside' : j < c.numhashqs
    · obtain ⟨vp', offset', other⟩ := place_some good inside'
      have other' : (c.setQueue vp offset q).place j = some (vp', offset') := other
      have apart : ¬ (vp' = vp ∧ offset' = offset) := by
        rintro ⟨rfl, rfl⟩
        exact same (place_inj good inside' inside (other.trans there.symm))
      have inside'' : j < (c.setQueue vp offset q).numhashqs := inside'
      refine (shared_queue inside'' other').trans ?_
      rw [setQueue_queue made, if_neg apart, shared_queue inside' other]
    · exact (if_neg inside').trans (if_neg inside').symm

theorem index_lt (good : c.Good) : index id c.numhashqs < c.numhashqs := Nat.mod_lt _ good.1

theorem get_shared (good : c.Good) (store : Store) (myvp : Nat) (type : GetType) :
    (get c store myvp id type).map (fun r => (r.1, r.2.1.shared, r.2.2)) =
      SSACSimpleSharedArray.get c.shared store id type := by
  rw [get, SSACSimpleSharedArray.get]
  split_ifs with isValid
  · have inside : index id c.numhashqs < c.numhashqs := index_lt good
    obtain ⟨vp, offset, there⟩ := place_some good inside
    have made : (((c.createRepOn myvp).createRepOn vp).rep vp).isSome := createRepOn_isSome
    have queue : c.shared.hashqs (index id c.shared.numhashqs) = c.queue vp offset :=
      shared_queue (index_lt good) there
    simp only [there, Option.bind_some, createRepOn_queue, queue, Option.map_map]
    refine congrArg (Option.map · _) (funext fun r => ?_)
    have good' : ((c.createRepOn myvp).createRepOn vp).Good := good
    have shared := shared_setQueue (q := r.2.1) good' (index_lt good) there made
    simp only [createRepOn_shared] at shared
    exact congrArg (fun m => (r.1, m, r.2.2)) shared
  · rfl

theorem modifyEntry_shared (good : c.Good) (inside : qi < c.numhashqs)
    (f : CacheEntrySimple → CacheEntrySimple) :
    (modifyEntry c qi i f).map SSAC.shared =
      SSACSimpleSharedArray.modifyEntry c.shared qi i f := by
  obtain ⟨vp, offset, there⟩ := place_some good inside
  rw [modifyEntry, SSACSimpleSharedArray.modifyEntry, there, Option.bind_some,
    shared_queue inside there]
  cases entries : (c.queue vp offset).entries with
  | none => simp only [entries, Option.map_none]
  | some es =>
      have made := isSome_of_entries (by rw [entries]; rfl)
      simp only [entries, Option.map_some]
      rw [shared_setQueue good inside there made]

theorem putback_shared (good : c.Good) (inside : qi < c.numhashqs) (myvp : Nat) (flag : PutFlag) :
    (putback c myvp qi i flag).map SSAC.shared =
      SSACSimpleSharedArray.putback c.shared qi i flag := by
  obtain ⟨vp, offset, there⟩ := place_some good inside
  rw [putback, SSACSimpleSharedArray.putback, shared_queue inside there]
  simp only [createRepOn_place, there, Option.bind_some, createRepOn_queue]
  cases entries : (c.queue vp offset).entries with
  | none => rfl
  | some es =>
      have inside' : index (entryAt es i).id c.numhashqs < c.numhashqs := index_lt good
      obtain ⟨vp', offset', there'⟩ := place_some good inside'
      have queue : c.shared.hashqs (index (entryAt es i).id c.shared.numhashqs) =
          c.queue vp' offset' := shared_queue (index_lt good) there'
      simp only [Option.bind_some, createRepOn_numhashqs, there', queue]
      by_cases present : (c.queue vp' offset').entries.isSome
      · have made : ((c.createRepOn myvp).rep vp').isSome :=
          isSome_of_entries (by rw [createRepOn_queue]; exact present)
        have good' : (c.createRepOn myvp).Good := good
        rw [present, made, if_pos (by rfl), if_pos rfl, modifyEntry_shared good' inside,
          createRepOn_shared]
      · rw [if_neg (by simp [present]), if_neg present]
        rfl

/-! ### Runs -/

theorem step_shared {s : SSAC × Store} (good : s.1.Good) (a : Nat × Access) :
    (step s a).map (fun r => ((r.1.1.shared, r.1.2), r.2)) =
      sharedStep (s.1.shared, s.2) a.2 := by
  obtain ⟨c, store⟩ := s
  have good : c.Good := good
  have inside : ∀ {id}, index id c.numhashqs < c.numhashqs := index_lt good
  obtain ⟨myvp, access⟩ := a
  cases access with
  | get id type =>
      simp only [step, sharedStep, ← get_shared good store myvp type, Option.map_map]
      rfl
  | assign id i v =>
      simp only [step, sharedStep]
      rw [show c.shared.numhashqs = c.numhashqs from rfl, ← modifyEntry_shared good inside,
        Option.map_map, Option.map_map]
      rfl
  | dirty id i =>
      simp only [step, sharedStep]
      rw [show c.shared.numhashqs = c.numhashqs from rfl, ← modifyEntry_shared good inside,
        Option.map_map, Option.map_map]
      rfl
  | putback id i flag =>
      simp only [step, sharedStep]
      rw [show c.shared.numhashqs = c.numhashqs from rfl, ← putback_shared good inside myvp,
        Option.map_map, Option.map_map]
      rfl

theorem modifyEntry_good {m : SSAC} {f : CacheEntrySimple → CacheEntrySimple} (good : c.Good)
    (done : modifyEntry c qi i f = some m) : m.Good := by
  obtain ⟨_, _, done⟩ := Option.bind_eq_some_iff.mp done
  obtain ⟨_, _, rfl⟩ := Option.map_eq_some_iff.mp done
  exact good

theorem step_good {s t : SSAC × Store} {a : Nat × Access} {o : Option Got} (good : s.1.Good)
    (moved : step s a = some (t, o)) : t.1.Good := by
  obtain ⟨myvp, access⟩ := a
  cases access with
  | get id type =>
      obtain ⟨⟨got, r⟩, done, same⟩ := Option.map_eq_some_iff.mp moved
      cases same
      rw [get] at done
      split_ifs at done
      obtain ⟨_, _, done⟩ := Option.bind_eq_some_iff.mp done
      obtain ⟨_, _, same⟩ := Option.map_eq_some_iff.mp done
      cases same
      exact good
  | assign id i v | dirty id i =>
      obtain ⟨m, done, same⟩ := Option.map_eq_some_iff.mp moved
      cases same
      exact modifyEntry_good good done
  | putback id i flag =>
      obtain ⟨m, done, same⟩ := Option.map_eq_some_iff.mp moved
      cases same
      obtain ⟨_, _, done⟩ := Option.bind_eq_some_iff.mp done
      obtain ⟨_, _, done⟩ := Option.bind_eq_some_iff.mp done
      obtain ⟨_, _, done⟩ := Option.bind_eq_some_iff.mp done
      have good' : (s.1.createRepOn myvp).Good := good
      simp only [Option.ite_none_right_eq_some] at done
      exact modifyEntry_good good' done.2

end

/-- Every sequence of accesses, on whatever processors, has the results that it has with the
shared cache, and leaves the same queues and the same store. It stops at an assertion where it
stops there, and a `get` that has to wait for an entry is answered by `again` where it is
there. -/
theorem partitioned_run_shared {n p : Nat} (positive : 0 < n) (placed : Placed n p) (a : Nat)
    (store : Store) (accesses : List (Nat × Access)) :
    (Transducer.run step (create n a p, store) accesses).map
        (fun r => ((r.1.1.shared, r.1.2), r.2)) =
      Transducer.run sharedStep (SSACSimpleSharedArray.create n a, store)
        (accesses.map Prod.snd) := by
  have start : (create n a p).shared = SSACSimpleSharedArray.create n a := by
    refine congrArg (SSACSimpleSharedArray.SSAC.mk n a) (funext fun i => ?_)
    have queue : ∀ vp offset, (create n a p).queue vp offset = .new := fun _ _ => rfl
    split_ifs
    · cases (create n a p).place i with
      | none => rfl
      | some there => exact queue there.1 there.2
    · rfl
  rw [← start]
  let shared : SSAC × Store → SSACSimpleSharedArray.SSAC × Store := fun s => (s.1.shared, s.2)
  exact Transducer.run_commutes (I := fun s : SSAC × Store => s.1.Good) (f := shared)
    (fun s a good => step_shared good a) (fun s a t o => step_good) ⟨positive, placed⟩

/-- Two ids of one queue, used on two processors. -/
theorem partitioned_run_shared_two :
    (Transducer.run step (create 4 2 2, fun _ => 0)
        [(0, .get 1 .getForWrite), (0, .assign 1 0 7), (1, .get 5 .getForRead)]).map
          (fun r => ((r.1.1.shared, r.1.2), r.2)) =
      Transducer.run sharedStep (SSACSimpleSharedArray.create 4 2, fun _ => 0)
        [.get 1 .getForWrite, .assign 1 0 7, .get 5 .getForRead] :=
  partitioned_run_shared (by decide) (placed_pow (by decide) 1) 2 (fun _ => 0) _

end EBBLib.SSACSimplePartitionedArray
