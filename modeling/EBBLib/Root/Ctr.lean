import EBBLib.Library.Transducer
import EBBLib.Library.Word
import EBBLib.Root.Multi
import Mathlib.Algebra.BigOperators.Group.List.Basic

/-!
# The distributed counter and the shared counter

`EBBCtrPrim` is one word. `EBBCtrPrimDistributed` has a representative for each core
that has called it: a core's first call misses and creates it, and `val` adds up the
words of all representatives on the root's list. Individual words wrap below zero,
so the sum is only determined modulo the word range.

A call carries the two addresses that `EBBPrimMalloc` returns if the call misses.
-/

namespace EBBLib

/-- The methods of the `EBBCtr` interface. -/
inductive CtrOp where
  | inc
  | dec
  | val
deriving DecidableEq, Repr

/-- What an operation adds to the count. -/
def CtrOp.delta : CtrOp → Int
  | .inc => 1
  | .dec => -1
  | .val => 0

namespace EBBCtrPrim

/-- `EBBCtrPrim_inc`, `EBBCtrPrim_dec` and `EBBCtrPrim_val` on the field `v`. -/
def step (v : Nat) : CtrOp → Option (Nat × Option Nat)
  | .inc => some (Word64.add v 1, none)
  | .dec => some (Word64.sub v 1, none)
  | .val => some (v, some v)

end EBBCtrPrim

namespace EBBCtrPrimDistributed

open CObjEBBRootMultiImp

/-- The fields of a representative. -/
structure Rep where
  localValue : Nat
  theRoot : Nat
deriving DecidableEq, Repr

/-- Representatives by address. -/
abbrev Reps := Nat → Rep

/-- `EBBCtrPrimDistributed_inc`. -/
def inc (m : Reps) (self : Nat) : Reps :=
  Function.update m self { m self with localValue := Word64.add (m self).localValue 1 }

/-- `EBBCtrPrimDistributed_dec`. -/
def dec (m : Reps) (self : Nat) : Reps :=
  Function.update m self { m self with localValue := Word64.sub (m self).localValue 1 }

/-- The loop of `EBBCtrPrimDistributed_val`. The fuel bounds the number of nodes. -/
def valFrom (h : Heap) (m : Reps) (theRoot : Nat) : Nat → Nat × Nat → Nat → Option Nat
  | 0, _, _ => none
  | fuel + 1, (node, rep), val =>
      if node = 0 then some val
      else valFrom h m theRoot fuel (nextRep h theRoot node) (Word64.add val (m rep).localValue)

/-- `EBBCtrPrimDistributed_val`. -/
def val (fuel : Nat) (h : Heap) (m : Reps) (self : Nat) : Option Nat :=
  let theRoot := (m self).theRoot
  valFrom h m theRoot fuel (nextRep h theRoot 0) 0

/-- `EBBCtrPrimDistributed_createRep` with the memory that `EBBPrimMalloc` returns. -/
def createRep (repRef self : Nat) (m : Reps) : Nat × Reps :=
  (repRef, Function.update m repRef { localValue := 0, theRoot := self })

/-- The root that the id is bound to, all memory, the object in each core's local
entry (0 in the default state), and the addresses allocated so far. -/
structure State where
  root : Nat
  heap : Heap
  reps : Reps
  obj : Nat → Nat
  used : List Nat

/-- An operation on a core, with the memory for a representative and a list node. -/
structure Call where
  core : Nat
  op : CtrOp
  rep : Nat
  node : Nat
deriving DecidableEq, Repr

/-- The addresses are new. -/
def Fresh (s : State) (c : Call) : Prop :=
  c.rep ≠ 0 ∧ c.node ≠ 0 ∧ c.rep ≠ c.node ∧ c.rep ∉ s.used ∧ c.node ∉ s.used

instance (s : State) (c : Call) : Decidable (Fresh s c) :=
  inferInstanceAs (Decidable (_ ∧ _))

/-- The object that a call uses: the cached one, or the one that the miss on the
root finds or creates, which it installs in the local entry. -/
def dispatch (s : State) (c : Call) : Option (Nat × State) :=
  if s.obj c.core ≠ 0 then some (s.obj c.core, s)
  else
    (handleMiss (createRep c.rep) (s.used.length + 1) c.node s.heap s.reps s.root c.core).map
      fun (rep, heap, reps) =>
        (rep, { s with heap, reps, obj := Function.update s.obj c.core rep,
                       used := c.rep :: c.node :: s.used })

/-- One operation, with the value that `val` stores. -/
def step (s : State) (c : Call) : Option (State × Option Nat) :=
  if Fresh s c then
    (dispatch s c).bind fun (self, s) =>
      match c.op with
      | .inc => some ({ s with reps := inc s.reps self }, none)
      | .dec => some ({ s with reps := dec s.reps self }, none)
      | .val => (val (s.used.length + 1) s.heap s.reps self).map fun v => (s, some v)
  else none

/-- The state after `EBBCtrPrimDistributedCreate`. -/
def Created (s : State) : Prop :=
  (∃ h, s.heap = CObjEBBRootMultiImp.init h s.root) ∧ ∀ c, s.obj c = 0

/-- The output of an operation at the count `d`: `val` stores it modulo the word range. -/
def output (d : Int) : CtrOp → Option Nat
  | .val => some (d % 2 ^ 64).toNat
  | _ => none

/-- The outputs of a sequence of operations, where the count is the number of
increments minus the number of decrements so far, starting from `d`. -/
def expected (d : Int) : List CtrOp → List (Option Nat)
  | [] => []
  | op :: ops => output d op :: expected (d + op.delta) ops

/-! ### The sum of the local values -/

/-- Replacing one summand of a list without repetitions. -/
theorem sum_map_update {f : Nat → Nat} {xs : List Nat} (nodup : xs.Nodup) {a : Nat}
    (mem : a ∈ xs) (w : Nat) :
    (xs.map (Function.update f a w)).sum + f a = (xs.map f).sum + w := by
  induction xs with
  | nil => cases mem
  | cons b xs ih =>
      obtain ⟨outside, nodup⟩ := List.nodup_cons.mp nodup
      simp only [List.map_cons, List.sum_cons]
      by_cases here : b = a
      · subst here
        have rest : xs.map (Function.update f b w) = xs.map f :=
          List.map_congr_left fun c hc =>
            Function.update_of_ne (ne_of_mem_of_not_mem hc outside) _ _
        rw [Function.update_self, rest]
        omega
      · have tail := ih nodup ((List.mem_cons.mp mem).resolve_left (Ne.symm here))
        rw [Function.update_of_ne here]
        omega

/-- The sum of the local values of the representatives on a list of nodes. -/
def sumOf (h : Heap) (m : Reps) (xs : List Nat) : Nat :=
  ((reps h xs).map fun r => (m r).localValue).sum

/-- The loop of `val` adds up the list that it walks. -/
theorem valFrom_eq {h : Heap} (m : Reps) (root : Nat) {p : Nat} {xs : List Nat} (fuel acc : Nat)
    (linked : Chain.Linked h.next p xs) (enough : xs.length < fuel) (small : acc < 2 ^ 64) :
    valFrom h m root fuel
        (xs.headD 0, (xs.head?.map fun a => (h.node a).rep).getD 0) acc =
      some ((acc + sumOf h m xs) % 2 ^ 64) := by
  induction xs generalizing p fuel acc with
  | nil =>
      obtain ⟨fuel, rfl⟩ := Nat.exists_eq_add_of_lt enough
      simpa [valFrom, sumOf, reps] using (Nat.mod_eq_of_lt small).symm
  | cons a xs ih =>
      obtain ⟨fuel, rfl⟩ := Nat.exists_eq_add_of_lt enough
      have nonzero : a ≠ 0 := linked.2.1
      have next := nextRep_node root linked
      have tail := ih ((a :: xs).length + fuel) (Word64.add acc (m (h.node a).rep).localValue)
        linked.2.2 (by simp; omega) (Word64.add_lt _ _)
      simp only [List.headD_cons, List.head?_cons, Option.map_some, Option.getD_some, valFrom,
        if_neg nonzero, next, tail]
      simp only [sumOf, reps, Word64.add, List.map_cons, List.sum_cons, Nat.mod_add_mod,
        Nat.add_assoc]

/-! ### The invariant -/

/-- The list of representatives, its relation to the local entries, and the sum `d`
of the local values modulo the word range. -/
structure Counts (s : State) (xs : List Nat) (d : Int) : Prop where
  registers : Registers s.heap s.root xs
  created : ∀ a ∈ xs, a ∈ s.used
  rooted : ∀ r ∈ reps s.heap xs, r ≠ 0 ∧ r ∈ s.used ∧ (s.reps r).theRoot = s.root
  distinct : (reps s.heap xs).Nodup
  cached : ∀ c, s.obj c ≠ 0 → s.obj c ∈ reps s.heap xs
  sum : (sumOf s.heap s.reps xs : Int) % 2 ^ 64 = d % 2 ^ 64

namespace Counts

variable {s : State} {xs : List Nat} {d : Int}

theorem length_le (r : Counts s xs d) : xs.length ≤ s.used.length :=
  r.registers.length_le r.created

theorem start (created : Created s) : Counts s [] 0 := by
  obtain ⟨⟨h, heap⟩, default⟩ := created
  refine ⟨?_, by simp, by simp [reps], by simp [reps], fun c cached => ?_, by simp [sumOf, reps]⟩
  · rw [heap]
    exact registers_init h s.root
  · exact absurd (default c) cached

/-- A call gets a representative of the list, which grows by a fresh one with value
0 when the core has none. -/
theorem dispatch (r : Counts s xs d) {c : Call} (fresh : Fresh s c) :
    ∃ self t ys, dispatch s c = some (self, t) ∧ Counts t ys d ∧ self ∈ reps t.heap ys := by
  obtain ⟨repNonzero, nodeNonzero, apart, repFresh, nodeFresh⟩ := fresh
  have nodeOutside : c.node ∉ xs := fun mem => nodeFresh (r.created _ mem)
  by_cases cached : s.obj c.core ≠ 0
  · exact ⟨_, s, xs, if_pos cached, r, r.cached _ cached⟩
  · have miss := r.registers.handleMiss (createRep c.rep) s.reps c.core c.node
      (Nat.lt_succ_of_le r.length_le)
    rw [EBBCtrPrimDistributed.dispatch, if_neg cached, miss]
    by_cases missing : repOn s.heap c.core xs = 0
    · rw [if_pos missing, Option.map_some]
      have other : ∀ q ∈ reps s.heap xs, q ≠ c.rep := fun q mem same =>
        repFresh (same ▸ (r.rooted q mem).2.1)
      have list := reps_added s.heap s.root c.core c.rep nodeOutside
      refine
        ⟨_, _, c.node :: xs, rfl, ⟨r.registers.added nodeNonzero nodeOutside, ?_, ?_, ?_, ?_, ?_⟩,
        ?_⟩ <;> simp only [createRep, list]
      · intro a mem
        rcases List.mem_cons.mp mem with rfl | old
        · simp
        · simp [r.created a old]
      · intro q mem
        rcases List.mem_cons.mp mem with rfl | old
        · simp [repNonzero]
        · obtain ⟨nonzero, used, root⟩ := r.rooted q old
          rw [Function.update_of_ne (other q old)]
          exact ⟨nonzero, by simp [used], root⟩
      · exact List.nodup_cons.mpr ⟨fun mem => other _ mem rfl, r.distinct⟩
      · intro core nonzero
        by_cases here : core = c.core
        · simp [here]
        · rw [Function.update_of_ne here] at nonzero ⊢
          exact List.mem_cons_of_mem _ (r.cached core nonzero)
      · have same : (reps s.heap xs).map (fun q =>
            (Function.update s.reps c.rep ⟨0, s.root⟩ q).localValue) =
              (reps s.heap xs).map fun q => (s.reps q).localValue :=
          List.map_congr_left fun q mem => by rw [Function.update_of_ne (other q mem)]
        simp only [sumOf, list, List.map_cons, Function.update_self, List.sum_cons, same,
          Nat.zero_add]
        exact r.sum
      · exact List.mem_cons_self
    · rw [if_neg missing, Option.map_some]
      refine ⟨_, _, xs, rfl, ⟨r.registers, ?_, ?_, r.distinct, ?_, r.sum⟩, repOn_mem missing⟩
      · intro a mem
        simp [r.created a mem]
      · intro q mem
        obtain ⟨nonzero, used, root⟩ := r.rooted q mem
        exact ⟨nonzero, by simp [used], root⟩
      · intro core nonzero
        by_cases here : core = c.core
        · rw [here]
          simpa using repOn_mem missing
        · simp only [Function.update_of_ne here] at nonzero ⊢
          exact r.cached core nonzero

/-- Adding `δ` to one local value modulo the word range adds `δ` to the count. -/
theorem update (r : Counts s xs d) {self w : Nat} {δ : Int} (mem : self ∈ reps s.heap xs)
    (changed : (w : Int) % 2 ^ 64 = ((s.reps self).localValue + δ) % 2 ^ 64) :
    Counts { s with reps := Function.update s.reps self { s.reps self with localValue := w } } xs
      (d + δ) := by
  refine ⟨r.registers, r.created, fun q hq => ?_, r.distinct, r.cached, ?_⟩
  · obtain ⟨nonzero, used, root⟩ := r.rooted q hq
    refine ⟨nonzero, used, ?_⟩
    by_cases here : q = self
    · simpa [here] using here ▸ root
    · simpa [Function.update_of_ne here] using root
  · have values : (fun q => (Function.update s.reps self
        { s.reps self with localValue := w } q).localValue) =
          Function.update (fun q => (s.reps q).localValue) self w := by
      funext q
      by_cases here : q = self
      · simp [here]
      · simp [Function.update_of_ne here]
    have total := sum_map_update (f := fun q => (s.reps q).localValue) r.distinct mem w
    have before := r.sum
    simp only [sumOf] at before ⊢
    rw [values]
    omega

/-- `val` stores the count. -/
theorem val (r : Counts s xs d) {self : Nat} (mem : self ∈ reps s.heap xs) :
    val (s.used.length + 1) s.heap s.reps self = some (d % 2 ^ 64).toNat := by
  obtain ⟨_, _, root⟩ := r.rooted self mem
  have walk := valFrom_eq s.reps s.root (s.used.length + 1) 0 r.registers.linked
    (Nat.lt_succ_of_le r.length_le) (by decide)
  have sum := r.sum
  rw [EBBCtrPrimDistributed.val, root, nextRep_head r.registers, walk]
  congr 1
  omega

/-- The step rule: an operation with fresh memory completes and is counted. -/
theorem step (r : Counts s xs d) {c : Call} (fresh : Fresh s c) :
    ∃ t ys, step s c = some (t, output d c.op) ∧ Counts t ys (d + c.op.delta) := by
  obtain ⟨self, t, ys, found, counts, mem⟩ := r.dispatch fresh
  rw [EBBCtrPrimDistributed.step, if_pos fresh, found, Option.bind_some]
  cases op : c.op with
  | inc =>
      refine ⟨_, ys, rfl, counts.update mem ?_⟩
      simp only [Word64.add, CtrOp.delta]
      omega
  | dec =>
      refine ⟨_, ys, rfl, counts.update mem ?_⟩
      simp only [Word64.sub, CtrOp.delta]
      omega
  | val =>
      refine ⟨t, ys, ?_, by simpa [CtrOp.delta] using counts⟩
      simp only [counts.val mem, Option.map_some]
      rfl

end Counts

/-- One operation of the shared counter. -/
theorem shared_step {v : Nat} {d : Int} (count : (v : Int) = d % 2 ^ 64) (op : CtrOp) :
    ∃ v', EBBCtrPrim.step v op = some (v', output d op) ∧ (v' : Int) = (d + op.delta) % 2 ^ 64 := by
  cases op with
  | inc => exact ⟨_, rfl, by simp only [Word64.add, CtrOp.delta]; omega⟩
  | dec => exact ⟨_, rfl, by simp only [Word64.sub, CtrOp.delta]; omega⟩
  | val =>
      have stored : v = (d % 2 ^ 64).toNat := by omega
      exact ⟨v, by rw [EBBCtrPrim.step, output, ← stored], by simpa [CtrOp.delta] using count⟩

/-- The shared counter stores the expected values. -/
theorem shared_expected {v : Nat} {d : Int} (count : (v : Int) = d % 2 ^ 64) (ops : List CtrOp) :
    ∃ v', Transducer.run EBBCtrPrim.step v ops = some (v', expected d ops) := by
  induction ops generalizing v d with
  | nil => exact ⟨v, rfl⟩
  | cons op ops ih =>
      obtain ⟨w, moved, count'⟩ := shared_step count op
      obtain ⟨v', rest⟩ := ih count'
      exact ⟨v', Transducer.run_cons moved rest⟩

/-- The two counters hold the same count. -/
def SameCount (s : State) (v : Nat) : Prop :=
  ∃ xs d, Counts s xs d ∧ (v : Int) = d % 2 ^ 64

/-- One operation on both counters has the same output and keeps the count the same. -/
theorem sameCount_step {s t : State} {v : Nat} {c : Call} {out : Option Nat}
    (same : SameCount s v) (moved : step s c = some (t, out)) :
    ∃ v', EBBCtrPrim.step v c.op = some (v', out) ∧ SameCount t v' := by
  obtain ⟨xs, d, counts, count⟩ := same
  have fresh : Fresh s c := by
    by_contra stale
    simp [step, stale] at moved
  obtain ⟨t', ys, run, counts'⟩ := counts.step fresh
  rw [run, Option.some.injEq, Prod.mk.injEq] at moved
  obtain ⟨rfl, rfl⟩ := moved
  obtain ⟨v', moved, count'⟩ := shared_step count c.op
  exact ⟨v', moved, ys, _, counts', count'⟩

/-- The outputs of the distributed counter are those of the shared counter on the same
operations, whatever the cores are, and operations with fresh memory complete. -/
theorem refines_shared {s t : State} {calls : List Call} {outs : List (Option Nat)}
    (created : Created s) (ran : Transducer.run step s calls = some (t, outs)) :
    (∃ v, Transducer.run EBBCtrPrim.step 0 (calls.map Call.op) = some (v, outs)) ∧
      outs = expected 0 (calls.map Call.op) ∧
      ∀ c, Fresh t c → (step t c).isSome := by
  have start : SameCount s 0 := ⟨[], 0, Counts.start created, rfl⟩
  obtain ⟨v, shared, final⟩ :=
    Transducer.run_simulates (fun _ _ _ _ _ => sameCount_step) start ran
  obtain ⟨v', sums⟩ := shared_expected (v := 0) (d := 0) rfl (calls.map Call.op)
  refine ⟨⟨v, shared⟩, ?_, fun c fresh => ?_⟩
  · rw [shared, Option.some.injEq, Prod.mk.injEq] at sums
    exact sums.2
  · obtain ⟨_, _, counts, _⟩ := final
    obtain ⟨_, _, moved, _⟩ := counts.step fresh
    rw [moved]
    rfl

/-- A fresh counter whose root is at address 1. -/
def sample : State :=
  { root := 1
    heap := CObjEBBRootMultiImp.init ⟨fun _ => ⟨0, 0⟩, fun _ => ⟨0, 0, 0⟩⟩ 1
    reps := fun _ => ⟨0, 0⟩
    obj := fun _ => 0
    used := [] }

/-- Two decrements on different cores, and the value on a third one. -/
theorem refines_shared_sample :
    ∃ t outs, Transducer.run step sample
        [⟨0, .dec, 10, 11⟩, ⟨1, .dec, 12, 13⟩, ⟨2, .val, 14, 15⟩] = some (t, outs) ∧
      (∃ v, Transducer.run EBBCtrPrim.step 0 [.dec, .dec, .val] = some (v, outs)) ∧
      outs = [none, none, some (2 ^ 64 - 2)] := by
  have ends : ((Transducer.run step sample
      [⟨0, .dec, 10, 11⟩, ⟨1, .dec, 12, 13⟩, ⟨2, .val, 14, 15⟩]).map Prod.snd) =
        some [none, none, some (2 ^ 64 - 2)] := by decide
  obtain ⟨⟨t, outs⟩, ran, values⟩ := Option.map_eq_some_iff.mp ends
  exact ⟨t, outs, ran, (refines_shared ⟨⟨_, rfl⟩, fun _ => rfl⟩ ran).1, values⟩

end EBBCtrPrimDistributed

end EBBLib
