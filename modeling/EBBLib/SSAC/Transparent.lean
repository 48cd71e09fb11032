import EBBLib.Library.Transducer
import EBBLib.SSAC.SimpleSharedArray

/-!
# The cache is transparent

Clients write and read objects by id and flush the cache, one operation after the
other. The abstract map `m` holds the most recent value of every id, or the initial
value of the backing store.

`Agrees` is the invariant of one queue: its entries hold the values of the map, and
the store holds them for the ids without a dirty entry. It is stated on a list of
entries, of which an operation replaces one, so each operation has one lemma about
`pre ++ e :: post`.
-/

namespace EBBLib.SSACSimpleSharedArray

open CacheObjectIdSimple HashQueues

/-- An operation of a client that does not overlap with others. -/
inductive Op where
  | write (id : CacheObjectIdSimple) (v : Nat) (flag : PutFlag)
  | read (id : CacheObjectIdSimple)
  | flush

/-- The value that was read, or the whole backing store after a flush. -/
inductive Output where
  | wrote
  | value (v : Nat)
  | flushed (store : Store)

/-- `get(id, GETFORWRITE)`, a new value, `dirty()` and `putback`. -/
def write (c : SSAC) (store : Store) (id : CacheObjectIdSimple) (v : Nat) (flag : PutFlag) :
    Option (SSAC × Store) :=
  (get c store id .getForWrite).bind fun (got, c, store) =>
    match got with
    | .entry i =>
        let qi := index id c.numhashqs
        (dirty c qi i v).bind fun c => (putback c qi i flag).map fun c => (c, store)
    | _ => none

/-- `get(id, GETFORREAD)` and the data of the entry. -/
def read (c : SSAC) (store : Store) (id : CacheObjectIdSimple) : Option (Nat × SSAC × Store) :=
  (get c store id .getForRead).bind fun (got, c, store) =>
    match got with
    | .entry i =>
        ((c.hashqs (index id c.numhashqs)).entries).map fun es => ((entryAt es i).data, c, store)
    | _ => none

/-- One operation on the cache and its backing store. -/
def step (s : SSAC × Store) : Op → Option ((SSAC × Store) × Output)
  | .write id v flag => (write s.1 s.2 id v flag).map fun s => (s, .wrote)
  | .read id => (read s.1 s.2 id).map fun (v, s) => (s, .value v)
  | .flush => (flush s.1 s.2).map fun s => (s, .flushed s.2)

/-- The same operations on a map. -/
def mapStep (m : Store) : Op → Option (Store × Output)
  | .write id v _ => some (Function.update m id v, .wrote)
  | .read id => some (m, .value (m id))
  | .flush => some (m, .flushed m)

/-- The constructor of `SSACSimpleSharedArray`. -/
def create (numhashqs associativity : Nat) : SSAC :=
  { numhashqs, associativity, hashqs := fun _ => .new }

/-- The operation accesses the queue `q`. -/
def accesses (n q : Nat) : Op → Bool
  | .write id _ _ => index id n = q
  | .read id => index id n = q
  | .flush => false

/-- The operation uses a valid id. -/
def validOp : Op → Bool
  | .write id _ _ => valid id
  | .read id => valid id
  | .flush => true

/-! ### One entry of a list -/

section Entries

variable {pre post : List CacheEntrySimple} {e e' : CacheEntrySimple}

@[simp] theorem entryAt_middle : entryAt (pre ++ e :: post) pre.length = e := by
  simp [entryAt]

theorem entryAt_eq {es : List CacheEntrySimple} {i : Nat} (bound : i < es.length) :
    entryAt es i = es[i] := by
  rw [entryAt, List.getD_eq_getElem?_getD, List.getElem?_eq_getElem bound, Option.getD_some]

/-- The entries around a position. -/
theorem exists_middle {es : List CacheEntrySimple} {i : Nat} (bound : i < es.length) :
    ∃ pre post, es = pre ++ entryAt es i :: post ∧ i = pre.length := by
  refine ⟨es.take i, es.drop (i + 1), ?_, ?_⟩
  · rw [entryAt_eq bound, List.getElem_cons_drop, List.take_append_drop]
  · rw [List.length_take, Nat.min_eq_left (Nat.le_of_lt bound)]

theorem search_some {id : CacheObjectIdSimple} {es : List CacheEntrySimple} {i : Nat}
    (found : search id es = some i) :
    ∃ pre e post, es = pre ++ e :: post ∧ i = pre.length ∧ e.id = id := by
  induction es generalizing i with
  | nil => cases found
  | cons d es ih =>
      rw [search] at found
      by_cases here : id = d.id
      · rw [if_pos here, Option.some.injEq] at found
        exact ⟨[], d, es, rfl, found.symm, here.symm⟩
      · rw [if_neg here, Option.map_eq_some_iff] at found
        obtain ⟨j, later, rfl⟩ := found
        obtain ⟨pre, e, post, rfl, rfl, same⟩ := ih later
        exact ⟨d :: pre, e, post, rfl, rfl, same⟩

theorem search_none {id : CacheObjectIdSimple} {es : List CacheEntrySimple}
    (missing : search id es = none) : ∀ e ∈ es, e.id ≠ id := by
  induction es with
  | nil => simp
  | cons d es ih =>
      rw [search] at missing
      by_cases here : id = d.id
      · simp [here] at missing
      · rw [if_neg here, Option.map_eq_none_iff] at missing
        simpa [Ne.symm here] using ih missing

/-- The scan returns the best entry so far or a position that it has scanned. -/
theorem lruFrom_some {es : List CacheEntrySimple} (i : Nat) (ep : Option (Nat × Nat))
    (free : ∀ e ∈ es, e.busy = false) (progress : ep.isSome ∨ es ≠ []) :
    ∃ k, lruFrom i ep es = some k ∧
      ((∃ best, ep = some best ∧ k = best.1) ∨ i ≤ k ∧ k < i + es.length) := by
  induction es generalizing i ep with
  | nil =>
      obtain ⟨best, rfl⟩ := Option.isSome_iff_exists.mp (progress.resolve_right (by simp))
      exact ⟨best.1, rfl, .inl ⟨best, rfl, rfl⟩⟩
  | cons e es ih =>
      have idle : e.busy = false := free e (by simp)
      have rest : ∀ lastused, ∃ k, lruFrom (i + 1) (some (i, lastused)) es = some k ∧
          (i ≤ k ∧ k < i + (e :: es).length) := by
        intro lastused
        obtain ⟨k, run, ⟨best, same, rfl⟩ | bounds⟩ :=
          ih (i + 1) (some (i, lastused)) (fun d hd => free d (by simp [hd])) (.inl rfl)
        · cases same
          exact ⟨_, run, by simp⟩
        · exact ⟨k, run, by simp only [List.length_cons]; omega⟩
      simp only [lruFrom, idle, Bool.false_eq_true, if_false]
      cases ep with
      | none =>
          simp only
          split
          · exact ⟨i, rfl, .inr (by simp)⟩
          · obtain ⟨k, run, bounds⟩ := rest e.lastused
            exact ⟨k, run, .inr bounds⟩
      | some best =>
          simp only
          split
          · obtain ⟨k, run, bounds⟩ := rest e.lastused
            exact ⟨k, run, .inr bounds⟩
          · obtain ⟨k, run, old | bounds⟩ :=
              ih (i + 1) (some best) (fun d hd => free d (by simp [hd])) (.inl rfl)
            · exact ⟨k, run, .inl old⟩
            · exact ⟨k, run, .inr (by simp only [List.length_cons]; omega)⟩

/-- When no entry is BUSY, there is a victim. -/
theorem lruentry_some {es : List CacheEntrySimple} (free : ∀ e ∈ es, e.busy = false)
    (nonempty : es ≠ []) :
    ∃ pre e post, es = pre ++ e :: post ∧ lruentry es = some pre.length := by
  obtain ⟨k, run, ⟨best, same, _⟩ | ⟨_, bound⟩⟩ :=
    lruFrom_some 0 none free (.inr nonempty)
  · cases same
  · rw [Nat.zero_add] at bound
    obtain ⟨pre, post, split, size⟩ := exists_middle bound
    exact ⟨pre, entryAt es k, post, split, by rw [lruentry, run, size]⟩

end Entries

/-! ### The ids of a queue -/

/-- No entry behind an entry with the id of an object has the same id. -/
abbrev DistinctIds (es : List CacheEntrySimple) : Prop :=
  es.Pairwise fun a b => valid a.id → a.id ≠ b.id

section Distinct

variable {pre post : List CacheEntrySimple} {e e' : CacheEntrySimple}

/-- The ids of the other entries differ from the id of a valid entry. -/
theorem DistinctIds.others (distinct : DistinctIds (pre ++ e :: post)) (isValid : valid e.id) :
    ∀ d ∈ pre ++ post, d.id ≠ e.id := by
  obtain ⟨_, tail, cross⟩ := List.pairwise_append.mp distinct
  intro d mem same
  rcases List.mem_append.mp mem with before | after
  · exact cross d before e (by simp) (same ▸ isValid) same
  · exact (List.pairwise_cons.mp tail).1 d after isValid same.symm

/-- An entry may be replaced by one whose id no other entry has. -/
theorem DistinctIds.replace (distinct : DistinctIds (pre ++ e :: post))
    (apart : valid e'.id → ∀ d ∈ pre ++ post, d.id ≠ e'.id) :
    DistinctIds (pre ++ e' :: post) := by
  obtain ⟨left, tail, cross⟩ := List.pairwise_append.mp distinct
  obtain ⟨_, right⟩ := List.pairwise_cons.mp tail
  refine List.pairwise_append.mpr ⟨left, List.pairwise_cons.mpr ⟨?_, right⟩, ?_⟩
  · intro d mem isValid
    exact (apart isValid d (by simp [mem])).symm
  · intro a ha b hb isValid
    rcases List.mem_cons.mp hb with rfl | tail
    · intro same
      exact apart (same ▸ isValid) a (by simp [ha]) same
    · exact cross a ha b (by simp [tail]) isValid

end Distinct

/-! ### The invariant of a queue -/

/-- The entries of queue `q` hold the values of the map `m`, and so does the store for
the ids that have no dirty entry. -/
structure Agrees (n q : Nat) (m store : Store) (es : List CacheEntrySimple) : Prop where
  idle : ∀ e ∈ es, e.busy = false
  placed : ∀ e ∈ es, valid e.id → index e.id n = q ∧ e.data = m e.id
  dirtyValid : ∀ e ∈ es, e.dirty → valid e.id
  distinct : es.Pairwise fun a b => valid a.id → a.id ≠ b.id
  clean : ∀ id, index id n = q → (∀ e ∈ es, e.id = id → e.dirty = false) → store id = m id

namespace Agrees

variable {n q : Nat} {m store : Store} {pre post : List CacheEntrySimple}
  {e e' : CacheEntrySimple}

/-- The ids of the other entries differ from the id of a valid entry. -/
theorem others (r : Agrees n q m store (pre ++ e :: post)) (isValid : valid e.id) :
    ∀ d ∈ pre ++ post, d.id ≠ e.id :=
  DistinctIds.others r.distinct isValid

/-- The rule for an operation on one queue: it replaces an entry and may change the map
and the store. -/
theorem replace {m' store' : Store} (r : Agrees n q m store (pre ++ e :: post))
    (idle : e'.busy = false) (dirtyValid : e'.dirty → valid e'.id)
    (placed : valid e'.id → index e'.id n = q ∧ e'.data = m' e'.id)
    (apart : valid e'.id → ∀ d ∈ pre ++ post, d.id ≠ e'.id)
    (kept : ∀ d ∈ pre ++ post, valid d.id → m' d.id = m d.id)
    (clean : ∀ id, index id n = q → (∀ d ∈ pre ++ post, d.id = id → d.dirty = false) →
      (e'.id = id → e'.dirty = false) → store' id = m' id) :
    Agrees n q m' store' (pre ++ e' :: post) := by
  have old : ∀ d ∈ pre ++ post, ∀ x, d ∈ pre ++ x :: post := fun d mem x =>
    List.perm_middle.mem_iff.mpr (List.mem_cons_of_mem x mem)
  have cases : ∀ d ∈ pre ++ e' :: post, d = e' ∨ d ∈ pre ++ post := fun d mem =>
    List.mem_cons.mp (List.perm_middle.mem_iff.mp mem)
  refine ⟨?_, ?_, ?_, DistinctIds.replace r.distinct apart, ?_⟩
  · intro d mem
    rcases cases d mem with rfl | other
    · exact idle
    · exact r.idle d (old d other e)
  · intro d mem isValid
    rcases cases d mem with rfl | other
    · exact placed isValid
    · obtain ⟨here, data⟩ := r.placed d (old d other e) isValid
      exact ⟨here, by rw [data, kept d other isValid]⟩
  · intro d mem
    rcases cases d mem with rfl | other
    · exact dirtyValid
    · exact r.dirtyValid d (old d other e)
  · intro id here none
    exact clean id here (fun d mem same => none d (old d mem e') same)
      fun same => none e' (by simp) same

/-- Another queue does not depend on the ids of this one. -/
theorem frame {m' store' : Store} {es : List CacheEntrySimple} (r : Agrees n q m store es)
    (same : ∀ id, index id n = q → m' id = m id ∧ store' id = store id) :
    Agrees n q m' store' es := by
  refine ⟨r.idle, fun e mem isValid => ?_, r.dirtyValid, r.distinct, fun id here none => ?_⟩
  · obtain ⟨here, data⟩ := r.placed e mem isValid
    exact ⟨here, by rw [data, (same e.id here).1]⟩
  · rw [(same id here).1, (same id here).2]
    exact r.clean id here none

/-- The entries of a queue after `init`. -/
theorem fresh (r : Agrees n q m store []) (k : Nat) :
    Agrees n q m store (List.replicate k .new) := by
  have new : ∀ e ∈ List.replicate k CacheEntrySimple.new, e = .new := fun e mem =>
    List.eq_of_mem_replicate mem
  refine ⟨?_, ?_, ?_, ?_, fun id here _ => r.clean id here (by simp)⟩
  · intro e mem
    rw [new e mem]
    rfl
  · intro e mem isValid
    rw [new e mem] at isValid
    cases isValid
  · intro e mem dirty
    rw [new e mem] at dirty
    cases dirty
  · exact List.pairwise_replicate.mpr (.inr fun isValid => nomatch isValid)

/-- The access count does not wrap within the budget. -/
theorem access_eq {count : Nat} (budget : count + 1 < 2 ^ 64) (type : GetType) (i : Nat)
    (es : List CacheEntrySimple) :
    access type i es count = some ⟨count + 1, some (es.set i { entryAt es i with
      lastused := count + 1, busy := (entryAt es i).busy || type = .getForWrite })⟩ := by
  have counted : (count + 1) % 2 ^ 64 = count + 1 := Nat.mod_eq_of_lt budget
  rw [access, counted, if_neg (Nat.succ_ne_zero count)]

/-- Looking an id up keeps the map, and writes an evicted entry back to the store. -/
theorem getLocked {es : List CacheEntrySimple} {id : CacheObjectIdSimple} {count : Nat}
    (r : Agrees n q m store es) (nonempty : es ≠ []) (isValid : valid id)
    (here : index id n = q) (budget : count + 1 < 2 ^ 64) (type : GetType) :
    ∃ pre e post store',
      getLocked id type store ⟨count, some es⟩ =
        some (.entry pre.length, ⟨count + 1, some (pre ++ e :: post)⟩, store') ∧
      (e.id = id ∧ e.data = m id ∧ e.busy = decide (type = .getForWrite)) ∧
      Agrees n q m store' (pre ++ { e with busy := false } :: post) ∧
      (pre ++ e :: post).length = es.length ∧
      ∀ id', index id' n ≠ q → store' id' = store id' := by
  cases found : search id es with
  | some i =>
      obtain ⟨pre, e, post, rfl, rfl, rfl⟩ := search_some found
      have idle := r.idle e (by simp)
      obtain ⟨_, data⟩ := r.placed e (by simp) isValid
      refine ⟨pre, { e with lastused := count + 1, busy := decide (type = .getForWrite) }, post,
        store, ?_, ⟨rfl, data, rfl⟩, ?_, by simp, fun _ _ => rfl⟩
      · simp [SSACSimpleSharedArray.getLocked, found, idle, access_eq budget]
      · refine r.replace rfl (r.dirtyValid e (by simp)) (fun _ => ⟨here, data⟩) r.others
          (fun _ _ _ => rfl) fun id' here' others own => ?_
        refine r.clean id' here' fun d mem => ?_
        simp only [List.mem_append, List.mem_cons] at mem
        rcases mem with before | rfl | after
        · exact others d (by simp [before])
        · exact own
        · exact others d (by simp [after])
  | none =>
      have absent := search_none found
      obtain ⟨pre, e, post, rfl, victim⟩ := lruentry_some r.idle nonempty
      have idle := r.idle e (by simp)
      have evicts : ∀ id', (if e.dirty then Function.update store e.id e.data else store) id' =
          if e.dirty ∧ id' = e.id then e.data else store id' := by
        intro id'
        cases e.dirty <;> simp [Function.update_apply]
      have loaded : (if e.dirty then Function.update store e.id e.data else store) id = m id := by
        rw [evicts, if_neg fun both => absent e (by simp) both.2.symm]
        exact r.clean id here fun d mem same => absurd same (absent d mem)
      refine ⟨pre, ⟨id, decide (type = .getForWrite), false, count + 1, m id⟩, post,
        if e.dirty then Function.update store e.id e.data else store, ?_, ⟨rfl, rfl, rfl⟩, ?_,
        by simp, ?_⟩
      · simp [SSACSimpleSharedArray.getLocked, found, victim, idle, access_eq budget, loaded]
      · refine r.replace rfl (fun dirty => nomatch dirty) (fun _ => ⟨here, rfl⟩)
          (fun _ d mem => absent d ?_) (fun _ _ _ => rfl) fun id' here' others _ => ?_
        · simp only [List.mem_append, List.mem_cons] at mem ⊢
          tauto
        · rw [evicts]
          by_cases saved : e.dirty ∧ id' = e.id
          · rw [if_pos saved, saved.2]
            exact (r.placed e (by simp) (r.dirtyValid e (by simp) saved.1)).2
          · rw [if_neg saved]
            refine r.clean id' here' fun d mem same => ?_
            simp only [List.mem_append, List.mem_cons] at mem
            rcases mem with before | rfl | after
            · exact others d (by simp [before]) same
            · simpa [same.symm] using saved
            · exact others d (by simp [after]) same
      · intro id' elsewhere
        rw [evicts, if_neg]
        rintro ⟨dirty, rfl⟩
        exact elsewhere (r.placed e (by simp) (r.dirtyValid e (by simp) dirty)).1

/-- For an id that the entry does not have, it is enough that the other entries are clean. -/
theorem clean_of_ne (r : Agrees n q m store (pre ++ e :: post)) {id : CacheObjectIdSimple}
    (here : index id n = q) (other : id ≠ e.id)
    (others : ∀ d ∈ pre ++ post, d.id = id → d.dirty = false) : store id = m id := by
  refine r.clean id here fun d mem same => ?_
  obtain rfl | mem := List.mem_cons.mp (List.perm_middle.mem_iff.mp mem)
  · exact absurd same.symm other
  · exact others d mem same

/-- The holder of an entry stores a new value for its id. -/
theorem write (r : Agrees n q m store (pre ++ e :: post)) (isValid : valid e.id) (v : Nat)
    {lastused : Nat} :
    Agrees n q (Function.update m e.id v) store
      (pre ++ { e with data := v, dirty := true, busy := false, lastused } :: post) := by
  have here := (r.placed e (by simp) isValid).1
  refine r.replace rfl (fun _ => isValid) (fun _ => ⟨here, by simp⟩) r.others
    (fun d mem _ => Function.update_of_ne (r.others isValid d mem) v m)
    fun id here' others own => ?_
  by_cases same : id = e.id
  · cases own same.symm
  · rw [Function.update_of_ne same]
    exact r.clean_of_ne here' same others

/-- Saving a dirty entry. -/
theorem save (r : Agrees n q m store (pre ++ e :: post)) (dirty : e.dirty) :
    Agrees n q m (Function.update store e.id e.data)
      (pre ++ { e with dirty := false, busy := false } :: post) := by
  have isValid := r.dirtyValid e (by simp) dirty
  have placed := r.placed e (by simp) isValid
  refine r.replace rfl (fun dirty => nomatch dirty) (fun _ => placed) r.others (fun _ _ _ => rfl)
    fun id here others _ => ?_
  by_cases same : id = e.id
  · rw [same, Function.update_self, placed.2]
  · rw [Function.update_of_ne same]
    exact r.clean_of_ne here same others

/-- Flushing a queue ends, and leaves no dirty entry. -/
theorem flushQueue {es : List CacheEntrySimple} {fuel : Nat} (r : Agrees n q m store es)
    (enough : es.countP flushes < fuel) :
    ∃ es' store', flushQueue fuel es store = some (es', store') ∧ Agrees n q m store' es' ∧
      (∀ e ∈ es', e.dirty = false) ∧ es'.length = es.length ∧
      ∀ id, index id n ≠ q → store' id = store id := by
  induction fuel generalizing es store with
  | zero => omega
  | succ fuel ih =>
      rw [SSACSimpleSharedArray.flushQueue]
      cases found : es.findIdx? flushes with
      | none =>
          refine ⟨es, store, rfl, r, fun e mem => ?_, rfl, fun _ _ => rfl⟩
          have skipped : flushes e = false := List.findIdx?_eq_none_iff.mp found e mem
          by_contra dirty
          rw [Bool.not_eq_false] at dirty
          simp [flushes, dirty, r.idle e mem, r.dirtyValid e mem dirty] at skipped
      | some j =>
          obtain ⟨bound, matched, _⟩ := List.findIdx?_eq_some_iff_getElem.mp found
          obtain ⟨pre, e, post, rfl, rfl, flushed⟩ :
              ∃ pre e post, es = pre ++ e :: post ∧ j = pre.length ∧ flushes e := by
            obtain ⟨pre, post, split, size⟩ := exists_middle bound
            exact ⟨pre, _, post, split, size, entryAt_eq bound ▸ matched⟩
          have dirty : e.dirty := by
            simp only [flushes, Bool.and_eq_true] at flushed
            exact flushed.2
          have fewer : (pre ++ { e with dirty := false, busy := false } :: post).countP flushes <
              fuel := by
            have cleaned : flushes { e with dirty := false, busy := false } = false := by
              simp [flushes]
            simp only [List.countP_append, List.countP_cons, flushed, cleaned, if_true] at enough ⊢
            simp only [Bool.false_eq_true, if_false]
            omega
          obtain ⟨es', store', run, agrees, cleans, length, kept⟩ := ih (r.save dirty) fewer
          refine ⟨es', store', by simpa using run, agrees, cleans, by simpa using length, ?_⟩
          intro id elsewhere
          rw [kept id elsewhere, Function.update_of_ne]
          rintro rfl
          exact elsewhere (r.placed e (by simp) (r.dirtyValid e (by simp) dirty)).1

end Agrees

/-! ### The whole cache -/

/-- The invariant of the cache: every queue agrees with the map. -/
structure Represents (m : Store) (c : SSAC) (store : Store) : Prop where
  sizes : 0 < c.numhashqs ∧ 0 < c.associativity
  queue : ∀ q, Agrees c.numhashqs q m store ((c.hashqs q).entries.getD [])
  length : ∀ q es, (c.hashqs q).entries = some es → es.length = c.associativity

namespace Represents

variable {m store : Store} {c : SSAC} {id : CacheObjectIdSimple}

theorem create {n a : Nat} (hn : 0 < n) (ha : 0 < a) (store : Store) :
    Represents store (create n a) store := by
  refine ⟨⟨hn, ha⟩, fun q => ⟨?_, ?_, ?_, ?_, fun _ _ _ => rfl⟩, ?_⟩ <;>
    simp [SSACSimpleSharedArray.create, HashQueues.new]

/-- Replace the contents of one queue, where the map and the store change only at ids
of that queue. -/
theorem update {m' store' : Store} {q count : Nat} {es : List CacheEntrySimple}
    (r : Represents m c store) (agrees : Agrees c.numhashqs q m' store' es)
    (length : es.length = c.associativity)
    (kept : ∀ id, index id c.numhashqs ≠ q → m' id = m id ∧ store' id = store id) :
    Represents m' (c.setQueue q ⟨count, some es⟩) store' := by
  refine ⟨r.sizes, fun p => ?_, fun p es' some => ?_⟩
  · by_cases here : p = q
    · simpa [SSAC.setQueue, here] using agrees
    · simp only [SSAC.setQueue, Function.update_of_ne here]
      exact (r.queue p).frame fun id same => kept id fun same' => here (same.symm.trans same')
  · by_cases here : p = q
    · simp only [SSAC.setQueue, here, Function.update_self, Option.some.injEq] at some
      exact some ▸ length
    · simp only [SSAC.setQueue, Function.update_of_ne here] at some
      exact r.length p es' some

/-- A `get` finds the entry of its id with the value of the map. -/
theorem get (r : Represents m c store) (isValid : valid id) (type : GetType)
    (budget : (c.hashqs (index id c.numhashqs)).count + 1 < 2 ^ 64) :
    ∃ pre e post store',
      get c store id type =
        some (.entry pre.length,
          c.setQueue (index id c.numhashqs)
            ⟨(c.hashqs (index id c.numhashqs)).count + 1, some (pre ++ e :: post)⟩, store') ∧
      (e.id = id ∧ e.data = m id ∧ e.busy = decide (type = .getForWrite)) ∧
      Agrees c.numhashqs (index id c.numhashqs) m store'
        (pre ++ { e with busy := false } :: post) ∧
      (pre ++ e :: post).length = c.associativity ∧
      ∀ id', index id' c.numhashqs ≠ index id c.numhashqs → store' id' = store id' := by
  have queue := r.queue (index id c.numhashqs)
  have length := r.length (index id c.numhashqs)
  obtain ⟨es, ready, agrees, size⟩ : ∃ es,
      ensure (c.hashqs (index id c.numhashqs)) c.associativity =
        some ⟨(c.hashqs (index id c.numhashqs)).count, some es⟩ ∧
      Agrees c.numhashqs (index id c.numhashqs) m store es ∧ es.length = c.associativity := by
    generalize c.hashqs (index id c.numhashqs) = hashq at queue length ⊢
    obtain ⟨count, entries⟩ := hashq
    cases entries with
    | none => exact ⟨_, rfl, queue.fresh c.associativity, by simp⟩
    | some es => exact ⟨es, rfl, queue, length es rfl⟩
  have nonempty : es ≠ [] := by
    rintro rfl
    exact Nat.ne_of_lt r.sizes.2 size
  obtain ⟨pre, e, post, store', run, holds, agrees', size', kept⟩ :=
    agrees.getLocked nonempty isValid rfl budget type
  refine ⟨pre, e, post, store', ?_, holds, agrees', size'.trans size, kept⟩
  simp only [SSACSimpleSharedArray.get, isValid, if_true, ready, Option.bind_some, run,
    Option.map_some]

/-- The number of accesses of each queue after an operation. -/
def Counted (n : Nat) (op : Op) (c d : SSAC) : Prop :=
  ∀ q, (d.hashqs q).count = (c.hashqs q).count + if accesses n q op then 1 else 0

theorem read (r : Represents m c store) (isValid : valid id)
    (budget : (c.hashqs (index id c.numhashqs)).count + 1 < 2 ^ 64) :
    ∃ d store', read c store id = some (m id, d, store') ∧ Represents m d store' ∧
      d.numhashqs = c.numhashqs ∧ Counted c.numhashqs (.read id) c d := by
  obtain ⟨pre, e, post, store', run, ⟨_, data, idle⟩, agrees, size, kept⟩ :=
    r.get isValid .getForRead budget
  have same : { e with busy := false } = e := by
    cases e
    simp_all
  rw [same] at agrees
  refine ⟨c.setQueue (index id c.numhashqs)
      ⟨(c.hashqs (index id c.numhashqs)).count + 1, some (pre ++ e :: post)⟩, store', ?_,
    r.update agrees size fun id' elsewhere => ⟨rfl, kept id' elsewhere⟩, rfl, fun q => ?_⟩
  · rw [SSACSimpleSharedArray.read, run]
    simp [SSAC.setQueue, data]
  · by_cases here : q = index id c.numhashqs
    · simp [SSAC.setQueue, here, accesses]
    · simp [SSAC.setQueue, Function.update_of_ne here, accesses, Ne.symm here]

theorem write (r : Represents m c store) (isValid : valid id) (v : Nat) (flag : PutFlag)
    (budget : (c.hashqs (index id c.numhashqs)).count + 1 < 2 ^ 64) :
    ∃ d store', write c store id v flag = some (d, store') ∧
      Represents (Function.update m id v) d store' ∧
      d.numhashqs = c.numhashqs ∧ Counted c.numhashqs (.write id v flag) c d := by
  obtain ⟨pre, e, post, store', run, ⟨rfl, _, _⟩, agrees, size, kept⟩ :=
    r.get isValid .getForWrite budget
  let put : CacheEntrySimple := ⟨e.id, false, true,
    if flag = .keep then (c.hashqs (index e.id c.numhashqs)).count + 1 else 0, v⟩
  have written : Agrees c.numhashqs (index e.id c.numhashqs) (Function.update m e.id v) store'
      (pre ++ put :: post) := agrees.write isValid v
  refine ⟨c.setQueue (index e.id c.numhashqs)
      ⟨(c.hashqs (index e.id c.numhashqs)).count + 1, some (pre ++ put :: post)⟩, store', ?_,
    r.update written (by simpa using size) fun id elsewhere =>
      ⟨Function.update_of_ne (fun same => elsewhere (by rw [same])) v m, kept id elsewhere⟩,
    rfl, fun q => ?_⟩
  · rw [SSACSimpleSharedArray.write, run, Option.bind_some]
    simp [dirty, putback, modifyEntry, SSAC.setQueue, put]
  · by_cases here : q = index e.id c.numhashqs
    · simp [SSAC.setQueue, here, accesses]
    · simp [SSAC.setQueue, Function.update_of_ne here, accesses, Ne.symm here]

/-- The queue at position `q` has no dirty entry. -/
def Clean (c : SSAC) (q : Nat) : Prop := ∀ e ∈ (c.hashqs q).entries.getD [], e.dirty = false

theorem flushAt (r : Represents m c store) (q : Nat) :
    ∃ d store', flushAt c store q = some (d, store') ∧ Represents m d store' ∧ Clean d q ∧
      (∀ p, Clean c p → Clean d p) ∧ d.numhashqs = c.numhashqs ∧
      ∀ p, (d.hashqs p).count = (c.hashqs p).count := by
  have queue := r.queue q
  rw [SSACSimpleSharedArray.flushAt]
  cases entries : (c.hashqs q).entries with
  | none =>
      exact ⟨c, store, rfl, r, by simp [Clean, entries], fun _ clean => clean, rfl, fun _ => rfl⟩
  | some es =>
      rw [entries] at queue
      obtain ⟨es', store', run, agrees, cleans, length, kept⟩ :=
        queue.flushQueue (Nat.lt_succ_of_le List.countP_le_length)
      have size := length.trans (r.length q es entries)
      simp only [Option.getD_some] at run
      simp only [run, Option.map_some]
      refine ⟨_, store', rfl, r.update agrees size fun id elsewhere => ⟨rfl, kept id elsewhere⟩,
        by simpa [Clean, SSAC.setQueue] using cleans, fun p clean => ?_, rfl, fun p => ?_⟩
      · by_cases here : p = q
        · simpa [Clean, SSAC.setQueue, here] using cleans
        · simpa [Clean, SSAC.setQueue, Function.update_of_ne here] using clean
      · by_cases here : p = q
        · simp [SSAC.setQueue, here]
        · simp [SSAC.setQueue, Function.update_of_ne here]

/-- Flushing `todo` queues from `i` on leaves them clean. -/
theorem flushFrom (r : Represents m c store) (todo i : Nat) :
    ∃ d store', flushFrom todo i c store = some (d, store') ∧ Represents m d store' ∧
      (∀ q, i ≤ q → q < i + todo → Clean d q) ∧ (∀ p, Clean c p → Clean d p) ∧
      d.numhashqs = c.numhashqs ∧ ∀ p, (d.hashqs p).count = (c.hashqs p).count := by
  induction todo generalizing i c store with
  | zero => exact ⟨c, store, rfl, r, by omega, fun _ clean => clean, rfl, fun _ => rfl⟩
  | succ todo ih =>
      obtain ⟨c₁, store₁, first, r₁, clean₁, keeps₁, sizes₁, counts₁⟩ := r.flushAt i
      obtain ⟨d, store', rest, r', clean, keeps, sizes, counts⟩ := ih r₁ (i + 1)
      refine ⟨d, store', ?_, r', fun q lo hi => ?_, fun p clean => keeps p (keeps₁ p clean),
        sizes.trans sizes₁, fun p => (counts p).trans (counts₁ p)⟩
      · rw [SSACSimpleSharedArray.flushFrom, first]
        exact rest
      · rcases Nat.eq_or_lt_of_le lo with rfl | later
        · exact keeps _ clean₁
        · exact clean q later (by omega)

/-- After a flush the backing store is the map. -/
theorem flush (r : Represents m c store) :
    ∃ d, flush c store = some (d, m) ∧ Represents m d m ∧ d.numhashqs = c.numhashqs ∧
      Counted c.numhashqs .flush c d := by
  obtain ⟨d, store', run, r', clean, _, sizes, counts⟩ := r.flushFrom c.numhashqs 0
  have stored : store' = m := by
    funext id
    have bound : index id d.numhashqs < d.numhashqs := Nat.mod_lt _ r'.sizes.1
    exact (r'.queue _).clean id rfl fun e mem _ => clean _ (Nat.zero_le _) (by omega) e mem
  subst stored
  exact ⟨d, run, r', sizes, fun p => by simp [counts p, accesses]⟩

end Represents

/-- The cache before the operations `ops`, which are few enough for its counters. -/
structure Ready (n : Nat) (s : SSAC × Store) (m : Store) (ops : List Op) : Prop where
  represents : Represents m s.1 s.2
  queues : s.1.numhashqs = n
  valid : ∀ op ∈ ops, validOp op
  budget : ∀ q, (s.1.hashqs q).count + ops.countP (accesses n q) < 2 ^ 64

/-- One operation on the cache and on the map. -/
theorem Ready.step {n : Nat} {s : SSAC × Store} {m : Store} {op : Op} {ops : List Op}
    (r : Ready n s m (op :: ops)) :
    ∃ s' m' out, step s op = some (s', out) ∧ mapStep m op = some (m', out) ∧
      Ready n s' m' ops := by
  obtain ⟨represents, rfl, isValid, budget⟩ := r
  have valids : ∀ op ∈ ops, validOp op := fun op mem => isValid op (List.mem_cons_of_mem _ mem)
  -- The access that is counted now was part of the budget before.
  have remains : ∀ d, Represents.Counted s.1.numhashqs op s.1 d →
      ∀ q, (d.hashqs q).count + ops.countP (accesses s.1.numhashqs q) < 2 ^ 64 := by
    intro d counted q
    have before := budget q
    rw [List.countP_cons] at before
    rw [counted q]
    omega
  have now : ∀ q, accesses s.1.numhashqs q op → (s.1.hashqs q).count + 1 < 2 ^ 64 := by
    intro q isAccess
    have before := budget q
    rw [List.countP_cons, if_pos isAccess] at before
    omega
  cases op with
  | write id v flag =>
      have ok : id.valid := isValid _ List.mem_cons_self
      obtain ⟨d, store', run, kept, sizes, counted⟩ :=
        represents.write ok v flag (now _ (by simp [accesses]))
      exact ⟨(d, store'), _, .wrote, by rw [SSACSimpleSharedArray.step, run]; rfl, rfl,
        kept, sizes, valids, remains d counted⟩
  | read id =>
      have ok : id.valid := isValid _ List.mem_cons_self
      obtain ⟨d, store', run, kept, sizes, counted⟩ :=
        represents.read ok (now _ (by simp [accesses]))
      exact ⟨(d, store'), m, .value (m id), by rw [SSACSimpleSharedArray.step, run]; rfl, rfl,
        kept, sizes, valids, remains d counted⟩
  | flush =>
      obtain ⟨d, run, kept, sizes, counted⟩ := represents.flush
      exact ⟨(d, m), m, .flushed m, by rw [SSACSimpleSharedArray.step, run]; rfl, rfl,
        kept, sizes, valids, remains d counted⟩

/-- Every sequence of operations completes, with the outputs of the map: a read returns
the most recent value, and after a flush the backing store is the map. -/
theorem transparent {n a : Nat} (hn : 0 < n) (ha : 0 < a) (store : Store) (ops : List Op)
    (isValid : ∀ op ∈ ops, validOp op)
    (budget : ∀ q, ops.countP (accesses n q) < 2 ^ 64) :
    ∃ s m outs, Transducer.run step (create n a, store) ops = some (s, outs) ∧
      Transducer.run mapStep store ops = some (m, outs) := by
  have start : Ready n (create n a, store) store ops :=
    ⟨.create hn ha store, rfl, isValid, by simpa [create, HashQueues.new] using budget⟩
  simpa using Transducer.run_completes (f := id) (fun _ _ _ _ => Ready.step) start

/-- Two ids compete for the only entry of a cache. -/
theorem transparent_one_entry :
    ∃ s m outs, Transducer.run step (create 1 1, fun id => id.toNat)
        [.write 5 42 .keep, .read 6, .read 5, .flush] = some (s, outs) ∧
      Transducer.run mapStep (fun id => id.toNat)
        [.write 5 42 .keep, .read 6, .read 5, .flush] = some (m, outs) := by
  refine transparent (by decide) (by decide) _ _ (by decide) fun q => ?_
  exact Nat.lt_of_le_of_lt List.countP_le_length (by decide)

end EBBLib.SSACSimpleSharedArray
