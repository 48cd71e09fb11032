import EBBLib.Library.Chain
import EBBLib.Types
import Mathlib.Data.List.Perm.Subperm

/-!
# The root with one representative for each event location

`CObjEBBRootMultiImp` keeps its representatives in a linked list of `RepListNode`s
under a lock. Roots and nodes are kept by address, and 0 is the null pointer. The
functions that hold the lock for their whole body return `none` when they would
spin or when one of their assertions on the lock fails.

`Registers` relates a root to the list of its nodes, newest first.
-/

namespace EBBLib.CObjEBBRootMultiImp

open Chain

/-- `struct RepListNode_s`. -/
structure RepListNode where
  rep : Nat
  el : Nat
  next : Nat
deriving DecidableEq, Repr

/-- The fields of the root that change. -/
structure Root where
  head : Nat
  lock : Nat
deriving DecidableEq, Repr

/-- Roots and list nodes by address. -/
structure Heap where
  root : Nat → Root
  node : Nat → RepListNode

namespace Heap

def setRoot (h : Heap) (r : Nat) (v : Root) : Heap :=
  { h with root := Function.update h.root r v }

def setNode (h : Heap) (p : Nat) (v : RepListNode) : Heap :=
  { h with node := Function.update h.node p v }

/-- The links between nodes. -/
def next (h : Heap) (p : Nat) : Nat := (h.node p).next

end Heap

/-- `CObjEBBRootMultiImpInit`. -/
def init (h : Heap) (self : Nat) : Heap := h.setRoot self { head := 0, lock := 0 }

/-- `lockReps`. -/
def lockReps (h : Heap) (self : Nat) : Option Heap :=
  if (h.root self).lock = 0 then some (h.setRoot self { h.root self with lock := 1 }) else none

/-- `unlockReps`. -/
def unlockReps (h : Heap) (self : Nat) : Option Heap :=
  if (h.root self).lock = 1 then some (h.setRoot self { h.root self with lock := 0 }) else none

/-- The loop of `locked_FindRepOn`. The fuel bounds the number of nodes visited. -/
def findRepFrom (h : Heap) (el : Nat) : Nat → Nat → Option Nat
  | 0, _ => none
  | fuel + 1, rd =>
      if rd = 0 then some 0
      else if (h.node rd).el = el then some (h.node rd).rep
      else findRepFrom h el fuel (h.node rd).next

/-- `locked_FindRepOn`. -/
def lockedFindRepOn (fuel : Nat) (h : Heap) (self el : Nat) : Option Nat :=
  if (h.root self).lock ≠ 0 then findRepFrom h el fuel (h.root self).head else none

/-- `locked_AddRepOn` with the node that `EBBPrimMalloc` returns. -/
def lockedAddRepOn (rd : Nat) (h : Heap) (self el rep : Nat) : Option Heap :=
  if (h.root self).lock ≠ 0 then
    let h := h.setNode rd { rep, el, next := (h.root self).head }
    some (h.setRoot self { h.root self with head := rd })
  else none

/-- `CObjEBBRootMulti_addRepOn`. -/
def addRepOn (rd : Nat) (h : Heap) (self el rep : Nat) : Option Heap := do
  let h ← lockReps h self
  let h ← lockedAddRepOn rd h self el rep
  unlockReps h self

/-- `CObjEBBRootMulti_handleMiss` up to the installation of the representative. The
root's `createRep` acts on a memory of representatives of its own. -/
def handleMiss {ρ : Type} (createRep : Nat → ρ → Nat × ρ) (fuel rd : Nat) (h : Heap) (m : ρ)
    (self myel : Nat) : Option (Nat × Heap × ρ) := do
  let h ← lockReps h self
  let rep ← lockedFindRepOn fuel h self myel
  if rep = 0 then
    let (rep, m) := createRep self m
    let h ← lockedAddRepOn rd h self myel rep
    let h ← unlockReps h self
    some (rep, h, m)
  else
    let h ← unlockReps h self
    some (rep, h, m)

/-- `CObjEBBRootMulti_nextRep`: the node and `*rep`. -/
def nextRep (h : Heap) (self curr : Nat) : Nat × Nat :=
  let ret := if curr = 0 then (h.root self).head else (h.node curr).next
  if ret ≠ 0 then (ret, (h.node ret).rep) else (ret, 0)

/-- The unlocked root `r` lists the nodes `xs`. -/
structure Registers (h : Heap) (r : Nat) (xs : List Nat) : Prop where
  linked : Linked h.next (h.root r).head xs
  unlocked : (h.root r).lock = 0

/-- The representative of the first node of a list for `el`, or null. -/
def repOn (h : Heap) (el : Nat) (xs : List Nat) : Nat :=
  match xs.find? fun a => (h.node a).el = el with
  | some a => (h.node a).rep
  | none => 0

/-- The representatives on a list of nodes. -/
def reps (h : Heap) (xs : List Nat) : List Nat := xs.map fun a => (h.node a).rep

/-- The heap after `rd` has been put in front of the list. -/
def added (h : Heap) (rd self el rep : Nat) : Heap :=
  (h.setNode rd { rep, el, next := (h.root self).head }).setRoot self { head := rd, lock := 0 }

section

variable {h : Heap} {self el rep rd p : Nat} {xs : List Nat}

theorem registers_init (h : Heap) (self : Nat) : Registers (init h self) self [] := by
  constructor <;> simp [init, Heap.setRoot]

/-- The list is not longer than the list of the addresses in use. -/
theorem Registers.length_le {used : List Nat} (r : Registers h self xs)
    (created : ∀ a ∈ xs, a ∈ used) : xs.length ≤ used.length :=
  (r.linked.nodup.subperm created).length_le

theorem repOn_mem (found : repOn h el xs ≠ 0) : repOn h el xs ∈ reps h xs := by
  unfold repOn at found ⊢
  cases search : xs.find? fun a => (h.node a).el = el with
  | none => simp [search] at found
  | some a => exact List.mem_map_of_mem (List.mem_of_find?_eq_some search)

theorem findRepFrom_eq (fuel : Nat) (linked : Linked h.next p xs) (enough : xs.length < fuel) :
    findRepFrom h el fuel p = some (repOn h el xs) := by
  induction xs generalizing p fuel with
  | nil =>
      obtain ⟨fuel, rfl⟩ := Nat.exists_eq_add_of_lt enough
      obtain rfl : p = 0 := linked
      simp [findRepFrom, repOn]
  | cons a xs ih =>
      obtain ⟨fuel, rfl⟩ := Nat.exists_eq_add_of_lt enough
      obtain ⟨rfl, nonzero, rest⟩ := linked
      rw [findRepFrom, if_neg nonzero]
      by_cases here : (h.node p).el = el
      · simp [here, repOn]
      · have tail := ih ((p :: xs).length + fuel) rest (by simp; omega)
        rw [if_neg here, show (h.node p).next = h.next p from rfl, tail]
        simp [repOn, here]

/-- Registering a representative puts a node for it in front of the list. -/
theorem addRepOn_eq (unlocked : (h.root self).lock = 0) :
    addRepOn rd h self el rep = some (added h rd self el rep) := by
  simp [addRepOn, lockReps, lockedAddRepOn, unlockReps, unlocked, added, Heap.setRoot,
    Heap.setNode, Function.update_idem]

theorem Registers.added (r : Registers h self xs) (nonzero : rd ≠ 0) (fresh : rd ∉ xs) :
    Registers (added h rd self el rep) self (rd :: xs) := by
  have links : (CObjEBBRootMultiImp.added h rd self el rep).next =
      Function.update h.next rd (h.root self).head := by
    funext q
    by_cases new : q = rd
    · rw [new]
      simp [CObjEBBRootMultiImp.added, Heap.next, Heap.setRoot, Heap.setNode]
    · simp [CObjEBBRootMultiImp.added, Heap.next, Heap.setRoot, Heap.setNode,
        Function.update_of_ne new]
  constructor
  · rw [links]
    simpa [CObjEBBRootMultiImp.added, Heap.setRoot] using r.linked.push nonzero fresh
  · simp [CObjEBBRootMultiImp.added, Heap.setRoot]

theorem added_node_of_ne {a : Nat} (other : a ≠ rd) :
    (CObjEBBRootMultiImp.added h rd self el rep).node a = h.node a := by
  simp [CObjEBBRootMultiImp.added, Heap.setRoot, Heap.setNode, Function.update_of_ne other]

@[simp] theorem added_node_self :
    (CObjEBBRootMultiImp.added h rd self el rep).node rd = ⟨rep, el, (h.root self).head⟩ := by
  simp [CObjEBBRootMultiImp.added, Heap.setRoot, Heap.setNode]

theorem reps_added (h : Heap) (self el rep : Nat) (fresh : rd ∉ xs) :
    reps (CObjEBBRootMultiImp.added h rd self el rep) (rd :: xs) = rep :: reps h xs := by
  simp only [reps, List.map_cons, added_node_self, List.cons.injEq, true_and]
  refine List.map_congr_left fun a mem => ?_
  rw [added_node_of_ne (ne_of_mem_of_not_mem mem fresh)]

/-- A miss finds the representative of the core, or creates and registers one. -/
theorem Registers.handleMiss {ρ : Type} (r : Registers h self xs)
    (createRep : Nat → ρ → Nat × ρ) {fuel : Nat} (m : ρ) (el rd : Nat) (enough : xs.length < fuel) :
    handleMiss createRep fuel rd h m self el =
      if repOn h el xs = 0 then
        some ((createRep self m).1, CObjEBBRootMultiImp.added h rd self el (createRep self m).1,
          (createRep self m).2)
      else some (repOn h el xs, h, m) := by
  have locked : lockReps h self = some (h.setRoot self { h.root self with lock := 1 }) := by
    rw [lockReps, if_pos r.unlocked]
  have found : lockedFindRepOn fuel (h.setRoot self { h.root self with lock := 1 }) self el =
      some (repOn h el xs) := by
    simp only [lockedFindRepOn, Heap.setRoot, Function.update_self]
    exact findRepFrom_eq (h := h.setRoot self _) fuel r.linked enough
  have restored : Function.update h.root self { head := (h.root self).head, lock := 0 } =
      h.root := by
    rw [← r.unlocked]
    exact Function.update_eq_self self h.root
  rw [CObjEBBRootMultiImp.handleMiss, locked, Option.bind_eq_bind, Option.bind_some, found,
    Option.bind_eq_bind, Option.bind_some]
  split
  · simp [lockedAddRepOn, unlockReps, CObjEBBRootMultiImp.added, Heap.setRoot, Heap.setNode,
      Function.update_idem]
  · simp [unlockReps, Heap.setRoot, Function.update_idem, restored]

/-- `nextRep` steps along the list. -/
theorem nextRep_head (r : Registers h self xs) :
    nextRep h self 0 = (xs.headD 0, (xs.head?.map fun a => (h.node a).rep).getD 0) := by
  cases xs with
  | nil => simp [nextRep, show (h.root self).head = 0 from r.linked]
  | cons a xs =>
      obtain ⟨start, nonzero, _⟩ := r.linked
      simp [nextRep, start, nonzero]

theorem nextRep_node (self : Nat) {a : Nat} (linked : Linked h.next p (a :: xs)) :
    nextRep h self a = (xs.headD 0, (xs.head?.map fun b => (h.node b).rep).getD 0) := by
  obtain ⟨_, nonzero, rest⟩ := linked
  cases xs with
  | nil => simp [nextRep, nonzero, show (h.node a).next = 0 from rest]
  | cons b xs =>
      obtain ⟨start, nonzero', _⟩ := rest
      have start : (h.node a).next = b := start
      simp [nextRep, nonzero, start, nonzero']

end

end EBBLib.CObjEBBRootMultiImp
