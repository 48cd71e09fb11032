import EBBLib.Trans.Alloc
import Mathlib.Data.Finset.Card
import Mathlib.Data.Fintype.Card
import Mathlib.Data.Fintype.Basic
import Mathlib.Data.List.Count

/-!
# Freed ids

The object manager hands out ids of the calling core's portion with `AllocId` and takes
them back with `FreeId`. `TransEBBIdFree` stores the mark of an allocated entry again,
so that a freed entry stays marked. Every allocation uses up an entry for good, and the
portion is exhausted after as many allocations as it has entries.
-/

namespace EBBLib.Trans.Recycle

section

variable (I : Image)

/-- `AllocId` on core `myid`: the return code, `*id` and memory. -/
def allocId (myid : Nat) (mem : Mem) : EBBRC × Nat × Mem :=
  (EBBRC.ok, transEBBIdAlloc I myid mem)

/-- `FreeId`. -/
def freeId (mem : Mem) (id : Nat) : EBBRC × Mem := (EBBRC.ok, transEBBIdFree I mem id)

/-- Memory, and the ids that have been allocated and not freed. -/
structure State where
  mem : Mem
  live : List Nat

inductive Call where
  | alloc
  | free (id : Nat)
deriving DecidableEq, Repr

/-- One call on core `myid`. Only live ids are freed. -/
def step (myid : Nat) (s : State) : Call → Option State
  | .alloc =>
      let (_, id, mem) := allocId I myid s.mem
      some { mem, live := if id = 0 then s.live else id :: s.live }
  | .free id =>
      if id ∈ s.live then
        let (_, mem) := freeId I s.mem id
        some { mem, live := s.live.erase id }
      else none

/-- The calls on one core, which has run `trans_init`. -/
def machine (myid : Nat) : Machine State Call where
  init s := (∃ mem, s.mem = transInit I myid mem) ∧ s.live = []
  step := step I myid

/-- The entries of a core's portion. -/
def portion (core : Nat) : Finset Slot := Finset.univ.filter fun k => home k = core

/-- The entries that `TransEBBIdAlloc` can still hand out. -/
def available (core : Nat) (mem : Mem) : Finset Slot :=
  (portion core).filter fun k => ¬ Marked I mem k

/-- The entries that are not live can be handed out, so that an allocation fails only when
all of them are live. -/
structure Recycled (core : Nat) (s : State) : Prop where
  conserved : (available I core s.mem).card = (portion core).card - s.live.length
  exhausted : (allocId I core s.mem).2.1 = 0 → s.live.length = (portion core).card

end

/-! ### Counting entries -/

section

variable {I : Image} {core : Nat} {mem : Mem}

theorem mem_available {k : Slot} : k ∈ available I core mem ↔ home k = core ∧ ¬ Marked I mem k := by
  simp [available, portion]

theorem card_portion (hc : core < maxPics) : (portion core).card = myNumGTrans := by
  rw [← Finset.card_range myNumGTrans]
  apply Finset.card_bij fun k _ => place k
  · intro k _
    exact Finset.mem_range.mpr (place_lt k)
  · intro k hk l hl same
    simp only [portion, Finset.mem_filter, Finset.mem_univ, true_and] at hk hl
    exact slot_ext (hk.trans hl.symm) same
  · intro i hi
    obtain ⟨k, hk, pk⟩ := exists_slot hc (Finset.mem_range.mp hi)
    exact ⟨k, by simp [portion, hk], pk⟩

/-- `trans_init` clears the marks of the core's portion. -/
theorem transInit_available (hc : core < maxPics) (mem : Mem) :
    available I core (transInit I core mem) = portion core := by
  apply Finset.filter_true_of_mem
  intro k hk
  simp only [portion, Finset.mem_filter, Finset.mem_univ, true_and] at hk
  rw [Marked, transInit_mark hc hk]
  decide

/-- An allocation uses up one entry. -/
theorem available_setWord {k : Slot} :
    available I core (setWord mem (I.globalEntry k) 16 allocated) =
      (available I core mem).erase k := by
  ext l
  rw [mem_available, Finset.mem_erase, mem_available, marked_setWord]
  tauto

/-- Freeing an id whose entry is marked changes nothing. -/
theorem transEBBIdFree_eq {k : Slot} (marked : Marked I mem k) :
    transEBBIdFree I mem (I.id k) = mem := by
  rw [transEBBIdFree, I.id2gt_id, setWord]
  exact Function.update_eq_self_iff.mpr marked.symm

/-! ### Runs -/

/-- The call gives an id back. -/
def Call.isFree : Call → Bool
  | .alloc => false
  | .free _ => true

/-- Each entry is available, live, or lost by one of the calls that freed an id. -/
structure Counted (I : Image) (core frees : Nat) (s : State) : Prop where
  balance : (available I core s.mem).card + s.live.length + frees = (portion core).card
  owned : ∀ id ∈ s.live, ∃ k, id = I.id k ∧ Marked I s.mem k

variable {s t : State} {frees : Nat}

theorem Counted.start (hc : core < maxPics) (init : (machine I core).init s) :
    Counted I core 0 s := by
  obtain ⟨⟨mem, booted⟩, none⟩ := init
  constructor
  · rw [booted, none, transInit_available hc, List.length_nil, Nat.add_zero]
  · rw [none]
    simp

/-- An allocation that succeeds. -/
theorem Counted.grant (counted : Counted I core frees s) {k : Slot} (mine : home k = core)
    (unmarked : ¬ Marked I s.mem k) :
    Counted I core frees ⟨setWord s.mem (I.globalEntry k) 16 allocated, I.id k :: s.live⟩ := by
  have member : k ∈ available I core s.mem := mem_available.mpr ⟨mine, unmarked⟩
  have positive := Finset.card_pos.mpr ⟨k, member⟩
  constructor
  · have balance := counted.balance
    rw [available_setWord, Finset.card_erase_of_mem member, List.length_cons]
    omega
  · intro id live
    apply Or.elim (List.mem_cons.mp live)
    · rintro rfl
      exact ⟨k, rfl, marked_setWord.mpr (.inl rfl)⟩
    · intro old
      obtain ⟨l, same, marked⟩ := counted.owned id old
      exact ⟨l, same, marked_setWord.mpr (.inr marked)⟩

theorem Counted.step (hc : core < maxPics) (counted : Counted I core frees s) {c : Call}
    (moved : (machine I core).step s c = some t) :
    Counted I core (frees + if c.isFree then 1 else 0) t := by
  cases c with
  | alloc =>
      simp only [Call.isFree, Bool.false_eq_true, if_false, Nat.add_zero]
      obtain ⟨k, mine, unmarked, _, run⟩ | ⟨_, run⟩ := transEBBIdAlloc_cases (I := I) hc s.mem
      · have ran : allocId I core s.mem =
            (EBBRC.ok, I.id k, setWord s.mem (I.globalEntry k) 16 allocated) := by
          rw [allocId, run]
        simp only [machine, Recycle.step, ran, I.id_ne_zero k, if_false, Option.some.injEq] at moved
        exact moved ▸ counted.grant mine unmarked
      · have ran : allocId I core s.mem = (EBBRC.ok, 0, s.mem) := by rw [allocId, run]
        simp only [machine, Recycle.step, ran, if_true, Option.some.injEq] at moved
        exact moved ▸ counted
  | free id =>
      simp only [machine, Recycle.step, freeId] at moved
      by_cases live : id ∈ s.live
      · rw [if_pos live] at moved
        obtain rfl := Option.some.inj moved
        obtain ⟨k, rfl, marked⟩ := counted.owned id live
        have balance := counted.balance
        have positive := List.length_pos_of_mem live
        constructor
        · simp only [transEBBIdFree_eq marked, List.length_erase_of_mem live, Call.isFree, if_true]
          omega
        · intro id' later
          rw [transEBBIdFree_eq marked]
          exact counted.owned id' (List.mem_of_mem_erase later)
      · rw [if_neg live] at moved
        cases moved

theorem Counted.run (hc : core < maxPics) (counted : Counted I core frees s) {calls : List Call}
    (ran : (machine I core).exec s calls = some t) :
    Counted I core (frees + calls.countP Call.isFree) t := by
  induction calls generalizing s frees with
  | nil =>
      obtain rfl := Option.some.inj ran
      exact counted
  | cons c calls ih =>
      obtain ⟨_, middle, moved, rest⟩ := Machine.execVia_cons_iff.mp ran
      have whole := ih (counted.step hc moved) rest
      rwa [List.countP_cons, Nat.add_comm (calls.countP _), ← Nat.add_assoc]

/-- An allocation fails when no entry is available. -/
theorem alloc_eq_zero (hc : core < maxPics) :
    (allocId I core mem).2.1 = 0 ↔ (available I core mem).card = 0 := by
  rw [Finset.card_eq_zero, Finset.eq_empty_iff_forall_notMem, allocId]
  obtain ⟨k, mine, unmarked, _, run⟩ | ⟨all, run⟩ := transEBBIdAlloc_cases (I := I) hc mem
  · rw [run]
    constructor
    · exact fun null => absurd null (I.id_ne_zero k)
    · exact fun none => absurd (mem_available.mpr ⟨mine, unmarked⟩) (none k)
  · rw [run]
    refine ⟨fun _ k member => ?_, fun _ => rfl⟩
    obtain ⟨mine, unmarked⟩ := mem_available.mp member
    exact unmarked (all k mine)

/-- Ids are recycled in exactly the runs that free none. -/
theorem recycled_iff (hc : core < maxPics) (init : (machine I core).init s) {calls : List Call}
    (ran : (machine I core).exec s calls = some t) :
    Recycled I core t ↔ ∀ c ∈ calls, c = .alloc := by
  have balance := ((Counted.start hc init).run hc ran).balance
  have allocs : (∀ c ∈ calls, c = .alloc) ↔ calls.countP Call.isFree = 0 := by
    rw [List.countP_eq_zero]
    apply forall₂_congr
    intro c _
    cases c <;> simp [Call.isFree]
  rw [allocs]
  constructor
  · intro recycled
    have := recycled.conserved
    omega
  · intro none
    constructor
    · omega
    · intro failed
      have := (alloc_eq_zero hc).mp failed
      omega

/-- A core may start its calls once `trans_init` has run. -/
theorem init_booted (I : Image) (core : Nat) (mem : Mem) :
    (machine I core).init ⟨transInit I core mem, []⟩ := by
  simp only [machine, and_true]
  exact ⟨mem, rfl⟩

/-- An allocation with an entry left gives an id. -/
theorem exists_grant (hc : core < maxPics) (room : (available I core s.mem).card ≠ 0) :
    ∃ t, (machine I core).step s .alloc = some t ∧ t.live.length = s.live.length + 1 := by
  have nonzero : (allocId I core s.mem).2.1 ≠ 0 := mt (alloc_eq_zero hc).mp room
  simp only [machine, Recycle.step]
  exact ⟨_, rfl, by rw [if_neg nonzero, List.length_cons]⟩

/-- Freeing the id that was allocated last. -/
theorem step_free {k : Slot} {live : List Nat} (marked : Marked I mem k) :
    (machine I core).step ⟨mem, I.id k :: live⟩ (.free (I.id k)) = some ⟨mem, live⟩ := by
  simp only [machine, Recycle.step, freeId, transEBBIdFree_eq marked]
  rw [if_pos List.mem_cons_self, List.erase_cons_head]

/-- Allocating and freeing in turn uses up an entry each time. -/
theorem exec_alternate (hc : core < maxPics) {n : Nat} (counted : Counted I core frees s)
    (idle : s.live = []) (room : n ≤ (available I core s.mem).card) :
    ∃ (ids : List Nat) (t : State), ids.length = n ∧
      (machine I core).exec s (ids.flatMap fun id => [.alloc, .free id]) = some t ∧
      t.live = [] ∧ Counted I core (frees + n) t := by
  induction n generalizing s frees with
  | zero => exact ⟨[], s, rfl, rfl, idle, counted⟩
  | succ n ih =>
      obtain ⟨k, mine, unmarked, _, run⟩ | ⟨all, _⟩ := transEBBIdAlloc_cases (I := I) hc s.mem
      · have ran : allocId I core s.mem =
            (EBBRC.ok, I.id k, setWord s.mem (I.globalEntry k) 16 allocated) := by
          rw [allocId, run]
        have granted := counted.grant mine unmarked
        rw [idle] at granted
        have allocates : (machine I core).step s .alloc =
            some ⟨setWord s.mem (I.globalEntry k) 16 allocated, [I.id k]⟩ := by
          simp only [machine, Recycle.step, ran, I.id_ne_zero k, if_false, idle]
        -- The entry stays marked when its id is freed.
        have marked : Marked I (setWord s.mem (I.globalEntry k) 16 allocated) k :=
          marked_setWord.mpr (.inl rfl)
        have freed := granted.step hc (step_free marked)
        have balance := counted.balance
        have balance' := freed.balance
        simp only [idle, Call.isFree, if_true, List.length_nil] at balance balance' freed
        obtain ⟨ids, t, length, rest, none, final⟩ := ih freed rfl (by simp only; omega)
        refine ⟨I.id k :: ids, t, by simp [length], ?_, none, ?_⟩
        · rw [List.flatMap_cons, List.cons_append, List.cons_append, List.nil_append,
            Machine.exec_cons allocates, Machine.exec_cons (step_free marked)]
          exact rest
        · rwa [Nat.add_assoc, Nat.add_comm 1 n] at final
      · have none : available I core s.mem = ∅ := by
          apply Finset.eq_empty_iff_forall_notMem.mpr
          intro k member
          obtain ⟨mine, unmarked⟩ := mem_available.mp member
          exact unmarked (all k mine)
        rw [none, Finset.card_empty] at room
        omega

/-- A core that has started gets two ids. -/
theorem exec_two (hc : core < maxPics) (init : (machine I core).init s) :
    ∃ t, (machine I core).exec s [.alloc, .alloc] = some t ∧ t.live.length = 2 := by
  have start := Counted.start hc init
  have capacity := card_portion hc
  have many : 2 ≤ myNumGTrans := by decide
  have none : s.live.length = 0 := List.length_eq_zero_iff.mpr init.2
  have balance := start.balance
  obtain ⟨t, first, one⟩ := exists_grant (I := I) (s := s) hc (by omega)
  have granted := start.step hc first
  have balance' := granted.balance
  simp only [Call.isFree, Bool.false_eq_true, if_false] at balance'
  obtain ⟨u, second, two⟩ := exists_grant (I := I) (s := t) hc (by omega)
  exact ⟨u, (Machine.exec_cons first).trans (Machine.exec_one.mpr second), by omega⟩

/-- Two ids are allocated. -/
theorem recycled_sample : ∃ s t, (machine sampleImage 0).init s ∧
    (machine sampleImage 0).exec s [.alloc, .alloc] = some t ∧ t.live.length = 2 ∧
    Recycled sampleImage 0 t := by
  have hc : 0 < maxPics := by decide
  have init := init_booted sampleImage 0 sampleMem
  obtain ⟨t, ran, two⟩ := exec_two hc init
  exact ⟨_, t, init, ran, two, (recycled_iff hc init ran).mpr (by simp)⟩

/-- With no id live at all, an allocation fails after as many rounds as there are entries. -/
theorem alternate_exhausts (hc : core < maxPics) (init : (machine I core).init s) :
    ∃ (ids : List Nat) (t : State), ids.length = myNumGTrans ∧
      (machine I core).exec s (ids.flatMap fun id => [.alloc, .free id]) = some t ∧
      t.live = [] ∧ (allocId I core t.mem).2.1 = 0 := by
  have start := Counted.start hc init
  have total := start.balance
  have capacity := card_portion hc
  have idle := init.2
  rw [idle, List.length_nil, Nat.add_zero] at total
  obtain ⟨ids, t, length, ran, none, counted⟩ := exec_alternate hc start idle total.ge
  have balance := counted.balance
  refine ⟨ids, t, length.trans capacity, ran, none, (alloc_eq_zero hc).mpr ?_⟩
  omega

theorem exists_exhausted : ∃ (s t : State) (ids : List Nat), (machine sampleImage 0).init s ∧
    (machine sampleImage 0).exec s (ids.flatMap fun id => [.alloc, .free id]) = some t ∧
    t.live = [] ∧ (allocId sampleImage 0 t.mem).2.1 = 0 ∧ ¬ Recycled sampleImage 0 t := by
  have hc : 0 < maxPics := by decide
  have init := init_booted sampleImage 0 sampleMem
  obtain ⟨ids, t, _, ran, idle, failed⟩ := alternate_exhausts hc init
  refine ⟨_, t, ids, init, ran, idle, failed, fun recycled => ?_⟩
  have full := recycled.exhausted failed
  rw [idle, List.length_nil, card_portion hc] at full
  revert full
  decide

end

end EBBLib.Trans.Recycle
