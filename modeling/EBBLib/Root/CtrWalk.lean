import EBBLib.Root.Ctr
import EBBLib.Root.Walk
import Mathlib.Algebra.Order.BigOperators.Group.List

/-!
# The value of the distributed counter under increments

Increments and first misses go on while a core adds up the local values for
`EBBCtrPrimDistributed_val`. The value that it stores is between the number of increments
before the call and the number when it returns: what the call has added up and what the
representatives ahead of it hold is always between the two.
-/

namespace EBBLib.EBBCtrPrimDistributed.Walk

open CObjEBBRootMultiImp

/-- Where a core is in `EBBCtrPrimDistributed_val`. A call that is under way has the number of
increments at its start and the sum so far. -/
inductive Val where
  | idle
  /-- Before the read of the local value of `rep`. -/
  | read (self started node rep val : Nat)
  | next (self started node val : Nat)
deriving DecidableEq, Repr

/-- A call of `val` that has returned, with the increments before and after it. -/
structure Stored where
  started : Nat
  value : Nat
  done : Nat
deriving DecidableEq, Repr

/-- The counter, the number of increments that have completed, and the calls of `val`. -/
structure State where
  ctr : EBBCtrPrimDistributed.State
  done : Nat
  val : Nat → Val
  stored : List Stored

inductive Action where
  /-- The first miss of a core, with the memory for a representative and a node. -/
  | miss (core rep node : Nat)
  | inc (core : Nat)
  | val (core : Nat)
  /-- A step of the call of `val` on the core. -/
  | move (core : Nat)
deriving DecidableEq, Repr

namespace State

variable (s : State)

/-- The loop condition of `val`, after a call of `nextRep`. -/
def loop (core self started val : Nat) (returned : Nat × Nat) : State :=
  if returned.1 = 0 then
    { s with
      val := Function.update s.val core .idle
      stored := ⟨started, val, s.done⟩ :: s.stored }
  else
    { s with val := Function.update s.val core (.read self started returned.1 returned.2 val) }

/-- `self->theRoot->ft->nextRep`. -/
def nextRep (self curr : Nat) : Nat × Nat :=
  CObjEBBRootMultiImp.nextRep s.ctr.heap (s.ctr.reps self).theRoot curr

/-- A step. There are fewer than `2 ^ 64` increments. -/
def step : Action → Option State
  | .miss core rep node =>
      let call := ⟨core, .inc, rep, node⟩
      if s.ctr.obj core = 0 ∧ Fresh s.ctr call then
        (dispatch s.ctr call).map fun (_, ctr) => { s with ctr }
      else none
  | .inc core =>
      if s.ctr.obj core ≠ 0 ∧ s.done + 1 < 2 ^ 64 then
        some { s with
          ctr := { s.ctr with reps := EBBCtrPrimDistributed.inc s.ctr.reps (s.ctr.obj core) }
          done := s.done + 1 }
      else none
  | .val core =>
      if s.ctr.obj core ≠ 0 ∧ s.val core = .idle then
        let self := s.ctr.obj core
        some (s.loop core self s.done 0 (s.nextRep self 0))
      else none
  | .move core =>
      match s.val core with
      | .idle => none
      | .read self started node rep val =>
          some { s with
            val := Function.update s.val core
              (.next self started node (Word64.add val (s.ctr.reps rep).localValue)) }
      | .next self started node val =>
          some (s.loop core self started val (s.nextRep self node))

end State

/-- The counter has been created. -/
def machine : Machine State Action where
  init s := Created s.ctr ∧ s.done = 0 ∧ (∀ c, s.val c = .idle) ∧ s.stored = []
  step := State.step

section

variable {s t : State} {xs : List Nat} {core : Nat}

/-- The nodes that a call of `val` has before it. -/
def Val.Ahead (s : State) (xs : List Nat) : Val → Prop
  | idle => True
  | read self started node rep val =>
      self ∈ reps s.ctr.heap xs ∧ rep = (s.ctr.heap.node node).rep ∧
        ∃ front later, xs = front ++ node :: later ∧
          started ≤ val + sumOf s.ctr.heap s.ctr.reps (node :: later) ∧
          val + sumOf s.ctr.heap s.ctr.reps (node :: later) ≤ s.done
  | next self started node val =>
      self ∈ reps s.ctr.heap xs ∧
        ∃ front later, xs = front ++ node :: later ∧
          started ≤ val + sumOf s.ctr.heap s.ctr.reps later ∧
          val + sumOf s.ctr.heap s.ctr.reps later ≤ s.done

/-- No local value has wrapped around, and the calls of `val` are in between. -/
structure Tally (s : State) (xs : List Nat) : Prop where
  counts : Counts s.ctr xs s.done
  total : sumOf s.ctr.heap s.ctr.reps xs = s.done
  small : s.done < 2 ^ 64
  ahead : ∀ c, (s.val c).Ahead s xs
  stored : ∀ r ∈ s.stored, r.started ≤ r.value ∧ r.value ≤ r.done

theorem sumOf_cons (h : Heap) (m : Reps) (a : Nat) (xs : List Nat) :
    sumOf h m (a :: xs) = (m (h.node a).rep).localValue + sumOf h m xs := by
  simp [sumOf, reps]

/-- An increment counts where its representative is. -/
theorem sumOf_inc {h : Heap} {m : Reps} {r : Nat} (nodup : (reps h xs).Nodup)
    (small : (m r).localValue + 1 < 2 ^ 64) :
    sumOf h (inc m r) xs = sumOf h m xs + if r ∈ reps h xs then 1 else 0 := by
  have values : (fun q => (inc m r q).localValue) =
      Function.update (fun q => (m q).localValue) r ((m r).localValue + 1) := by
    funext q
    by_cases here : q = r
    · simp [here, inc, Word64.add_of_lt small]
    · simp [here, inc]
  rw [sumOf, sumOf, values]
  by_cases member : r ∈ reps h xs
  · have total := sum_map_update (f := fun q => (m q).localValue) nodup member
      ((m r).localValue + 1)
    rw [if_pos member]
    omega
  · rw [if_neg member, Nat.add_zero]
    congr 1
    exact List.map_congr_left fun q there =>
      Function.update_of_ne (ne_of_mem_of_not_mem there member) _ _

theorem reps_append (h : Heap) (xs ys : List Nat) : reps h (xs ++ ys) = reps h xs ++ reps h ys :=
  List.map_append

/-! ### Steps -/

/-- What an increment does to the representatives ahead of a call. -/
theorem Tally.sumOf_inc (tally : Tally s xs) {r : Nat} (member : r ∈ reps s.ctr.heap xs)
    (small : s.done + 1 < 2 ^ 64) (front ys : List Nat) (split : xs = front ++ ys) :
    sumOf s.ctr.heap s.ctr.reps ys ≤ sumOf s.ctr.heap (inc s.ctr.reps r) ys ∧
      sumOf s.ctr.heap (inc s.ctr.reps r) ys ≤ sumOf s.ctr.heap s.ctr.reps ys + 1 := by
  have nodup := tally.counts.distinct
  rw [split, reps_append] at nodup
  have value : (s.ctr.reps r).localValue ≤ s.done := by
    rw [← tally.total]
    exact List.le_sum_of_mem (List.mem_map_of_mem member)
  rw [Walk.sumOf_inc nodup.of_append_right (by omega)]
  split <;> omega

theorem Tally.inc (tally : Tally s xs) (cached : s.ctr.obj core ≠ 0)
    (small : s.done + 1 < 2 ^ 64) :
    Tally { s with
      ctr := { s.ctr with reps := EBBCtrPrimDistributed.inc s.ctr.reps (s.ctr.obj core) }
      done := s.done + 1 } xs := by
  have member := tally.counts.cached core cached
  have value : (s.ctr.reps (s.ctr.obj core)).localValue ≤ s.done := by
    rw [← tally.total]
    exact List.le_sum_of_mem (List.mem_map_of_mem member)
  have sum := Walk.sumOf_inc (m := s.ctr.reps) tally.counts.distinct
    (r := s.ctr.obj core) (by omega)
  rw [if_pos member, tally.total] at sum
  refine ⟨?_, sum, small, fun c => ?_, tally.stored⟩
  · have counted := tally.counts.update (δ := 1) member
      (w := Word64.add (s.ctr.reps (s.ctr.obj core)).localValue 1) (by
        rw [Word64.add_of_lt (by omega)]
        rfl)
    exact counted
  · have before := tally.ahead c
    cases at_ : s.val c with
    | idle => trivial
    | read self started node rep val =>
        rw [at_] at before
        obtain ⟨mine, same, front, later, split, low, high⟩ := before
        obtain ⟨grows, bounded⟩ := tally.sumOf_inc member small front (node :: later) split
        exact ⟨mine, same, front, later, split, by simp only; omega, by simp only; omega⟩
    | next self started node val =>
        rw [at_] at before
        obtain ⟨mine, front, later, split, low, high⟩ := before
        obtain ⟨grows, bounded⟩ := tally.sumOf_inc member small (front ++ [node]) later
          (by simp [split])
        exact ⟨mine, front, later, split, by simp only; omega, by simp only; omega⟩

/-- A call of `val` moves on. -/
theorem Tally.move {v : Val} {stored : List Stored} (tally : Tally s xs)
    (ahead : v.Ahead s xs) (bounds : ∀ r ∈ stored, r.started ≤ r.value ∧ r.value ≤ r.done) :
    Tally { s with val := Function.update s.val core v, stored } xs := by
  refine ⟨tally.counts, tally.total, tally.small, fun c => ?_, bounds⟩
  have same : ∀ {w : Val}, w.Ahead s xs →
      w.Ahead { s with val := Function.update s.val core v, stored } xs := by
    intro w there
    cases w <;> exact there
  by_cases here : c = core
  · simpa [here] using same ahead
  · simpa [here] using same (tally.ahead c)

/-- After a call of `nextRep`, with the nodes `later` ahead. -/
theorem Tally.loop {self started val : Nat} {later : List Nat} (tally : Tally s xs)
    (front : List Nat) (mine : self ∈ reps s.ctr.heap xs) (split : xs = front ++ later)
    (low : started ≤ val + sumOf s.ctr.heap s.ctr.reps later)
    (high : val + sumOf s.ctr.heap s.ctr.reps later ≤ s.done) :
    Tally (s.loop core self started val
      (later.headD 0, (later.head?.map fun a => (s.ctr.heap.node a).rep).getD 0)) xs := by
  cases later with
  | nil =>
      simp only [sumOf, reps, List.map_nil, List.sum_nil, Nat.add_zero] at low high
      refine tally.move trivial fun r member => ?_
      obtain rfl | old := List.mem_cons.mp member
      · exact ⟨low, high⟩
      · exact tally.stored r old
  | cons a later =>
      have nonzero : a ≠ 0 := by
        have whole := tally.counts.registers.linked
        rw [split] at whole
        exact (whole.suffix front).2.1
      have goes : s.loop core self started val ((a :: later).headD 0,
          ((a :: later).head?.map fun a => (s.ctr.heap.node a).rep).getD 0) =
          { s with val := Function.update s.val core
                    (.read self started a (s.ctr.heap.node a).rep val) } :=
        if_neg nonzero
      rw [goes]
      exact tally.move ⟨mine, rfl, front, later, split, low, high⟩ tally.stored

theorem Tally.theRoot {self : Nat} (tally : Tally s xs) (mine : self ∈ reps s.ctr.heap xs) :
    (s.ctr.reps self).theRoot = s.ctr.root := (tally.counts.rooted self mine).2.2

theorem Tally.val (tally : Tally s xs) (cached : s.ctr.obj core ≠ 0) :
    Tally (s.loop core (s.ctr.obj core) s.done 0 (s.nextRep (s.ctr.obj core) 0)) xs := by
  have mine := tally.counts.cached core cached
  rw [State.nextRep, tally.theRoot mine, nextRep_head tally.counts.registers]
  have total := tally.total
  exact tally.loop [] mine rfl (by omega) (by omega)

theorem Tally.read {self started node rep val : Nat} (tally : Tally s xs)
    (at_ : s.val core = .read self started node rep val) :
    Tally { s with
      val := Function.update s.val core
        (.next self started node (Word64.add val (s.ctr.reps rep).localValue)) } xs := by
  have ahead := tally.ahead core
  rw [at_] at ahead
  obtain ⟨mine, rfl, front, later, split, low, high⟩ := ahead
  rw [sumOf_cons] at low high
  have small := tally.small
  rw [Word64.add_of_lt (by omega)]
  exact tally.move ⟨mine, front, later, split, by omega, by omega⟩ tally.stored

theorem Tally.next {self started node val : Nat} (tally : Tally s xs)
    (at_ : s.val core = .next self started node val) :
    Tally (s.loop core self started val (s.nextRep self node)) xs := by
  have ahead := tally.ahead core
  rw [at_] at ahead
  obtain ⟨mine, front, later, split, low, high⟩ := ahead
  have linked : Chain.Linked s.ctr.heap.next node (node :: later) := by
    have whole := tally.counts.registers.linked
    rw [split] at whole
    exact whole.suffix front
  rw [State.nextRep, nextRep_node _ linked]
  exact tally.loop (front ++ [node]) mine (by simp [split]) low high

/-- A first miss finds the representative that was registered, or puts a new one in front. -/
theorem Tally.dispatch_miss {rep node : Nat} (tally : Tally s xs) (none : s.ctr.obj core = 0) :
    ∃ self ctr, dispatch s.ctr ⟨core, .inc, rep, node⟩ = some (self, ctr) ∧
      ctr.root = s.ctr.root ∧ ((ctr.heap = s.ctr.heap ∧ ctr.reps = s.ctr.reps) ∨
        ctr.heap = added s.ctr.heap node s.ctr.root core rep ∧
          ctr.reps = Function.update s.ctr.reps rep ⟨0, s.ctr.root⟩) := by
  have miss := tally.counts.registers.handleMiss (createRep rep) s.ctr.reps core node
    (Nat.lt_succ_of_le tally.counts.length_le)
  rw [EBBCtrPrimDistributed.dispatch, if_neg (not_not_intro none), miss]
  split
  · exact ⟨_, _, rfl, rfl, .inr ⟨rfl, rfl⟩⟩
  · exact ⟨_, _, rfl, rfl, .inl ⟨rfl, rfl⟩⟩

/-- A call of `val` does not see a new representative. -/
theorem Val.Ahead.frame {v : Val} (ahead : v.Ahead s xs) (new : List Nat)
    (nodes : ∀ a ∈ xs, (t.ctr.heap.node a).rep = (s.ctr.heap.node a).rep)
    (values : ∀ q ∈ reps s.ctr.heap xs, t.ctr.reps q = s.ctr.reps q) (done : t.done = s.done) :
    v.Ahead t (new ++ xs) := by
  have list : ∀ ys, (∀ a ∈ ys, a ∈ xs) → reps t.ctr.heap ys = reps s.ctr.heap ys := fun ys sub =>
    List.map_congr_left fun a member => nodes a (sub a member)
  have sum : ∀ ys, (∀ a ∈ ys, a ∈ xs) →
      sumOf t.ctr.heap t.ctr.reps ys = sumOf s.ctr.heap s.ctr.reps ys := by
    intro ys sub
    rw [sumOf, sumOf, list ys sub]
    congr 1
    refine List.map_congr_left fun q member => ?_
    obtain ⟨a, there, rfl⟩ := List.mem_map.mp member
    rw [values _ (List.mem_map_of_mem (sub a there))]
  have mine : ∀ {self}, self ∈ reps s.ctr.heap xs → self ∈ reps t.ctr.heap (new ++ xs) := by
    intro self member
    rw [reps_append, list xs fun _ h => h]
    exact List.mem_append_right _ member
  cases v with
  | idle => trivial
  | read self started node rep val =>
      obtain ⟨here, same, front, later, split, low, high⟩ := ahead
      have sub : ∀ a ∈ node :: later, a ∈ xs := fun a member => by simp [split, member]
      refine ⟨mine here, ?_, new ++ front, later, by simp [split], ?_, ?_⟩
      · rw [nodes node (sub node List.mem_cons_self), same]
      · rwa [sum _ sub]
      · rwa [sum _ sub, done]
  | next self started node val =>
      obtain ⟨here, front, later, split, low, high⟩ := ahead
      have sub : ∀ a ∈ later, a ∈ xs := fun a member => by simp [split, member]
      refine ⟨mine here, new ++ front, later, by simp [split], ?_, ?_⟩
      · rwa [sum _ sub]
      · rwa [sum _ sub, done]

theorem Tally.miss {rep node : Nat} {ctr : EBBCtrPrimDistributed.State} {self : Nat}
    (tally : Tally s xs) (fresh : Fresh s.ctr ⟨core, .inc, rep, node⟩)
    (none : s.ctr.obj core = 0)
    (ran : dispatch s.ctr ⟨core, .inc, rep, node⟩ = some (self, ctr)) :
    ∃ ys, Tally { s with ctr } ys := by
  obtain ⟨_, _, ys, ran', counts, -⟩ := tally.counts.dispatch fresh
  obtain ⟨_, _, ran'', root, change⟩ := tally.dispatch_miss none
  rw [ran, Option.some.injEq, Prod.mk.injEq] at ran' ran''
  obtain ⟨rfl, rfl⟩ := ran'
  obtain ⟨-, rfl⟩ := ran''
  obtain ⟨-, nodeNonzero, -, repFresh, nodeFresh⟩ := fresh
  obtain ⟨heap, same⟩ | ⟨heap, same⟩ := change
  · obtain rfl : ys = xs := by
      refine Chain.Linked.unique counts.registers.linked ?_
      rw [heap, root]
      exact tally.counts.registers.linked
    refine ⟨ys, counts, ?_, tally.small, fun c => ?_, tally.stored⟩
    · simp only [heap, same]
      exact tally.total
    · exact (tally.ahead c).frame [] (t := { s with ctr }) (fun a _ => by simp only [heap])
        (fun q _ => by simp only [same]) rfl
  · have outside : node ∉ xs := fun member => nodeFresh (tally.counts.created node member)
    have other : ∀ q ∈ reps s.ctr.heap xs, q ≠ rep := fun q member eq =>
      repFresh (eq ▸ (tally.counts.rooted q member).2.1)
    obtain rfl : ys = node :: xs := by
      refine Chain.Linked.unique counts.registers.linked ?_
      rw [heap, root]
      exact (tally.counts.registers.added nodeNonzero outside).linked
    have nodes : ∀ a ∈ xs, (ctr.heap.node a).rep = (s.ctr.heap.node a).rep := by
      intro a member
      rw [heap, added_node_of_ne (ne_of_mem_of_not_mem member outside)]
    have values : ∀ q ∈ reps s.ctr.heap xs, ctr.reps q = s.ctr.reps q := by
      intro q member
      rw [same, Function.update_of_ne (other q member)]
    refine ⟨node :: xs, counts, ?_, tally.small, fun c => ?_, tally.stored⟩
    · have list : reps ctr.heap (node :: xs) = rep :: reps s.ctr.heap xs := by
        rw [heap]
        exact reps_added s.ctr.heap s.ctr.root core rep outside
      have rest : (reps s.ctr.heap xs).map (fun q => (ctr.reps q).localValue) =
          (reps s.ctr.heap xs).map fun q => (s.ctr.reps q).localValue :=
        List.map_congr_left fun q member => by rw [values q member]
      have zero : (ctr.reps rep).localValue = 0 := by rw [same, Function.update_self]
      have total := tally.total
      rw [sumOf] at total
      simp only [sumOf, list, List.map_cons, List.sum_cons, rest, zero, Nat.zero_add]
      exact total
    · exact (tally.ahead c).frame [node] (t := { s with ctr }) nodes values rfl

theorem Tally.step {a : Action} (tally : Tally s xs) (moved : s.step a = some t) :
    ∃ ys, Tally t ys := by
  cases a with
  | miss core rep node =>
      obtain ⟨⟨none, fresh⟩, moved⟩ := Option.ite_none_right_eq_some.mp moved
      obtain ⟨⟨self, ctr⟩, ran, rfl⟩ := Option.map_eq_some_iff.mp moved
      exact tally.miss fresh none ran
  | inc core =>
      obtain ⟨⟨cached, small⟩, moved⟩ := Option.ite_none_right_eq_some.mp moved
      obtain rfl := Option.some.inj moved
      exact ⟨xs, tally.inc cached small⟩
  | val core =>
      obtain ⟨⟨cached, -⟩, moved⟩ := Option.ite_none_right_eq_some.mp moved
      obtain rfl := Option.some.inj moved
      exact ⟨xs, tally.val cached⟩
  | move core =>
      simp only [State.step] at moved
      split at moved
      · cases moved
      · rename_i at_
        obtain rfl := Option.some.inj moved
        exact ⟨xs, tally.read at_⟩
      · rename_i at_
        obtain rfl := Option.some.inj moved
        exact ⟨xs, tally.next at_⟩

theorem tally (run : machine.Reach s) : ∃ xs, Tally s xs := by
  apply run.invariant
  · rintro s ⟨created, done, idle, stored⟩
    refine ⟨[], ?_, ?_, ?_, fun c => ?_, ?_⟩
    · rw [done]
      exact Counts.start created
    · rw [done]
      rfl
    · rw [done]
      decide
    · rw [idle]
      trivial
    · simp [stored]
  · rintro s a t - ⟨xs, tally⟩ - moved
    exact tally.step moved

end

/-- Iterations return what was on the list when they began, and the value of the counter is
one that it had while `val` ran. -/
theorem iteration_safe :
    (∀ (ρ : Type) (createRep : Nat → ρ → Nat × ρ) (s : Root.Misses.State ρ) (xs : List Nat),
      Root.Misses.Nodes s xs → ∀ as w,
        (Root.Walk.machine createRep).exec (Root.Walk.first s) as = some w →
          Root.Walk.Safe s xs w) ∧
      ∀ s, machine.Reach s → ∀ r ∈ s.stored, r.started ≤ r.value ∧ r.value ≤ r.done := by
  refine ⟨fun ρ createRep s xs nodes as w run => Root.Walk.safe nodes run, fun s run => ?_⟩
  obtain ⟨xs, tally⟩ := tally run
  exact tally.stored

/-- A third core is added while an iteration goes over a list of two, and core 1 counts behind the
back of a call of `val`, which misses one of its two increments. -/
theorem iteration_safe_sample :
    (∃ s w, (Root.Misses.machine Root.Misses.sampleRep).exec Root.Misses.sample
        [.addRepOn 0 7 1, .addRepOn 1 8 2] = some s ∧
      (Root.Walk.machine Root.Misses.sampleRep).exec (Root.Walk.first s)
        [.misses (.addRepOn 2 9 3), .nextRep, .nextRep] = some w ∧
      w.returned = [(2, 8), (1, 7)] ∧ w.ended ∧ Root.Walk.Safe s [2, 1] w) ∧
      ∃ s, machine.Reach s ∧ s.stored = [⟨1, 2, 3⟩] ∧
        ∀ r ∈ s.stored, r.started ≤ r.value ∧ r.value ≤ r.done := by
  constructor
  · refine ⟨_, _, rfl, rfl, rfl, rfl, iteration_safe.1 _ Root.Misses.sampleRep _ _ ?_
      [.misses (.addRepOn 2 9 3), .nextRep, .nextRep] _ rfl⟩
    exact ⟨⟨by decide, rfl⟩, by decide⟩
  · have start : machine.Reach ⟨EBBCtrPrimDistributed.sample, 0, fun _ => .idle, []⟩ :=
      .init ⟨⟨⟨_, rfl⟩, fun _ => rfl⟩, rfl, fun _ => rfl, rfl⟩
    have run := start.next (.miss 0 10 11) trivial rfl |>.next (.miss 1 12 13) trivial rfl
      |>.next (.inc 1) trivial rfl |>.next (.val 0) trivial rfl |>.next (.inc 1) trivial rfl
      |>.next (.move 0) trivial rfl |>.next (.inc 1) trivial rfl |>.next (.move 0) trivial rfl
      |>.next (.move 0) trivial rfl |>.next (.move 0) trivial rfl
    exact ⟨_, run, rfl, iteration_safe.2 _ run⟩

end EBBLib.EBBCtrPrimDistributed.Walk
