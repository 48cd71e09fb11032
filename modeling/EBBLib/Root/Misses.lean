import EBBLib.Library.Transition
import EBBLib.Root.Multi

/-!
# Misses and registrations on a root

Any number of cores miss on an object at the same time, or register a representative for
some core. What a miss does under the lock of the root is one step, and the caching of the
representative that it found or created is another. A rebind resets the local entry of a
core at any time, so that the core misses again.

The root takes a null representative for none, so that representatives are not null here
where it matters.
-/

namespace EBBLib.Root.Misses

open CObjEBBRootMultiImp

section

variable {ρ : Type}

/-- The root with its nodes, what `createRep` works on, and the object in each core's local
entry, where 0 is the default. -/
structure State (ρ : Type) where
  root : Nat
  heap : Heap
  mem : ρ
  obj : Nat → Nat
  /-- The representative that the miss on a core is about to cache. -/
  missing : Nat → Option Nat
  /-- The addresses of nodes, the cores for which `createRep` was called, and what the misses
  on the cores have returned. -/
  used : List Nat
  created : List Nat
  returned : List (Nat × Nat)

inductive Action where
  | handleMiss (core node : Nat)
  | cacheObj (core : Nat)
  | invalidate (core : Nat)
  | addRepOn (el rep node : Nat)
deriving DecidableEq, Repr

/-- `createRep` with the call on record. -/
def recorded (createRep : Nat → ρ → Nat × ρ) (core self : Nat) (m : ρ × List Nat) :
    Nat × ρ × List Nat :=
  let (rep, mem) := createRep self m.1
  (rep, mem, core :: m.2)

namespace State

variable (s : State ρ)

/-- `EBBPrimMalloc` returns memory that is not in use. -/
def Fresh (node : Nat) : Prop := node ≠ 0 ∧ node ∉ s.used

instance (node : Nat) : Decidable (s.Fresh node) := inferInstanceAs (Decidable (_ ∧ _))

def step (createRep : Nat → ρ → Nat × ρ) : Action → Option (State ρ)
  | .handleMiss core node =>
      if s.Fresh node ∧ s.missing core = none then
        (CObjEBBRootMultiImp.handleMiss (recorded createRep core) (s.used.length + 1) node s.heap
          (s.mem, s.created) s.root core).map fun (rep, heap, mem, created) =>
            { s with heap, mem, created, used := node :: s.used,
                     missing := Function.update s.missing core (some rep) }
      else none
  | .cacheObj core =>
      match s.missing core with
      | some rep =>
          some { s with
            obj := Function.update s.obj core rep
            missing := Function.update s.missing core none
            returned := (core, rep) :: s.returned }
      | none => none
  | .invalidate core => some { s with obj := Function.update s.obj core 0 }
  | .addRepOn el rep node =>
      if s.Fresh node then
        (CObjEBBRootMultiImp.addRepOn node s.heap s.root el rep).map fun heap =>
          { s with heap, used := node :: s.used }
      else none

end State

/-- The root has been created. -/
structure Initial (s : State ρ) : Prop where
  heap : ∃ h, s.heap = CObjEBBRootMultiImp.init h s.root
  obj : ∀ c, s.obj c = 0
  missing : ∀ c, s.missing c = none
  used : s.used = []
  created : s.created = []
  returned : s.returned = []

def machine (createRep : Nat → ρ → Nat × ρ) : Machine (State ρ) Action where
  init := Initial
  step s := s.step createRep

/-- The core has a node on the list. -/
def State.HasNode (s : State ρ) (c : Nat) : Prop :=
  ∃ xs, Registers s.heap s.root xs ∧ ∃ a ∈ xs, (s.heap.node a).el = c

/-- A miss on the core has returned or is going to cache the representative, or has cached it. -/
def State.Answers (s : State ρ) (c r : Nat) : Prop :=
  (c, r) ∈ s.returned ∨ s.missing c = some r ∨ s.obj c = r ∧ r ≠ 0

/-- Only cores that have no representative get one by `addRepOn`. -/
def Registration (s : State ρ) : Action → Prop
  | .addRepOn el rep _ => rep ≠ 0 ∧ ¬ s.HasNode el
  | _ => True

/-- The nodes of `s` are at the end of the list of `t`, as they were. -/
def Keeps (s t : State ρ) : Prop :=
  ∃ xs new, Registers s.heap s.root xs ∧ Registers t.heap t.root (new ++ xs) ∧
    ∀ a ∈ xs, t.heap.node a = s.heap.node a

/-- Each core has one representative. -/
structure OneEach (createRep : Nat → ρ → Nat × ρ) (s : State ρ) : Prop where
  nodes : ∃ xs, Registers s.heap s.root xs ∧ (xs.map fun a => (s.heap.node a).el).Nodup
  created : s.created.Nodup
  /-- All misses on a core return what the first one did, and cache it. -/
  same : ∀ c r r', s.Answers c r → s.Answers c r' → r = r'
  kept : ∀ as t, (machine createRep).exec s as = some t → Keeps s t

variable {createRep : Nat → ρ → Nat × ρ} {s t : State ρ} {xs : List Nat} {core el rep node : Nat}

/-! ### The list -/

/-- The list of the nodes. -/
structure Nodes (s : State ρ) (xs : List Nat) : Prop where
  registers : Registers s.heap s.root xs
  used : ∀ a ∈ xs, a ∈ s.used

/-- What a step does to the list. -/
inductive Grows (s t : State ρ) : Prop
  | same (root : t.root = s.root) (heap : t.heap = s.heap) (used : ∀ a ∈ s.used, a ∈ t.used)
  | push (node el rep : Nat) (fresh : s.Fresh node) (root : t.root = s.root)
      (heap : t.heap = added s.heap node s.root el rep) (used : t.used = node :: s.used)

theorem Nodes.handleMiss (nodes : Nodes s xs) (core node : Nat) :
    handleMiss (recorded createRep core) (s.used.length + 1) node s.heap (s.mem, s.created) s.root
        core =
      if repOn s.heap core xs = 0 then
        some ((createRep s.root s.mem).1,
          added s.heap node s.root core (createRep s.root s.mem).1,
          (createRep s.root s.mem).2, core :: s.created)
      else some (repOn s.heap core xs, s.heap, s.mem, s.created) :=
  nodes.registers.handleMiss (recorded createRep core) (s.mem, s.created) core node
    (Nat.lt_succ_of_le (nodes.registers.length_le nodes.used))

theorem Nodes.grows {a : Action} (nodes : Nodes s xs) (moved : s.step createRep a = some t) :
    Grows s t := by
  cases a with
  | handleMiss core node =>
      obtain ⟨⟨fresh, -⟩, moved⟩ := Option.ite_none_right_eq_some.mp moved
      rw [nodes.handleMiss core node] at moved
      split at moved
      · obtain rfl := Option.some.inj moved
        exact .push node core _ fresh rfl rfl rfl
      · obtain rfl := Option.some.inj moved
        exact .same rfl rfl fun a member => List.mem_cons_of_mem _ member
  | cacheObj core =>
      simp only [State.step] at moved
      split at moved
      · obtain rfl := Option.some.inj moved
        exact .same rfl rfl fun a member => member
      · cases moved
  | invalidate core =>
      obtain rfl := Option.some.inj moved
      exact .same rfl rfl fun a member => member
  | addRepOn el rep node =>
      obtain ⟨fresh, moved⟩ := Option.ite_none_right_eq_some.mp moved
      rw [addRepOn_eq nodes.registers.unlocked] at moved
      obtain rfl := Option.some.inj moved
      exact .push node el rep fresh rfl rfl rfl

/-- A step puts at most one node in front of the list. -/
theorem Nodes.grow (nodes : Nodes s xs) (grows : Grows s t) :
    ∃ new, Nodes t (new ++ xs) ∧ ∀ a ∈ xs, t.heap.node a = s.heap.node a := by
  obtain ⟨root, heap, used⟩ | ⟨node, el, rep, fresh, root, heap, used⟩ := grows
  · refine ⟨[], ⟨?_, fun a member => used a (nodes.used a member)⟩, fun a _ => by rw [heap]⟩
    rw [root, heap]
    exact nodes.registers
  · have outside : node ∉ xs := fun member => fresh.2 (nodes.used node member)
    refine ⟨[node], ⟨?_, fun a member => ?_⟩, fun a member => ?_⟩
    · rw [root, heap]
      exact nodes.registers.added fresh.1 outside
    · rw [used]
      obtain rfl | old := List.mem_cons.mp member
      · exact List.mem_cons_self
      · exact List.mem_cons_of_mem _ (nodes.used a old)
    · rw [heap]
      exact added_node_of_ne (ne_of_mem_of_not_mem member outside)

theorem Nodes.step {a : Action} (nodes : Nodes s xs) (moved : s.step createRep a = some t) :
    ∃ new, Nodes t (new ++ xs) ∧ ∀ a ∈ xs, t.heap.node a = s.heap.node a :=
  nodes.grow (nodes.grows moved)

/-- Nodes stay on the list for the rest of the run. -/
theorem Nodes.kept {as : List Action} (nodes : Nodes s xs)
    (run : (machine createRep).exec s as = some t) :
    ∃ new, Nodes t (new ++ xs) ∧ ∀ a ∈ xs, t.heap.node a = s.heap.node a := by
  apply Machine.execVia_preserves
    (I := fun u => ∃ new, Nodes u (new ++ xs) ∧ ∀ a ∈ xs, u.heap.node a = s.heap.node a) run
  · exact ⟨[], nodes, fun _ _ => rfl⟩
  · rintro u act v ⟨new, listed, same⟩ _ moved
    obtain ⟨newer, listed', same'⟩ := listed.step moved
    refine ⟨newer ++ new, by rwa [List.append_assoc], fun b member => ?_⟩
    rw [same' b (List.mem_append_right _ member), same b member]

theorem Initial.nodes (start : Initial s) : Nodes s [] := by
  obtain ⟨h, heap⟩ := start.heap
  refine ⟨?_, nofun⟩
  rw [heap]
  exact registers_init h s.root

/-! ### One representative for each core -/

structure Inv (s : State ρ) (xs : List Nat) : Prop extends Nodes s xs where
  els : (xs.map fun a => (s.heap.node a).el).Nodup
  reps : ∀ a ∈ xs, (s.heap.node a).rep ≠ 0
  distinct : s.created.Nodup
  created : ∀ c ∈ s.created, ∃ a ∈ xs, (s.heap.node a).el = c
  answers : ∀ c r, s.Answers c r → ∃ a ∈ xs, (s.heap.node a).el = c ∧ (s.heap.node a).rep = r

theorem repOn_cases (h : Heap) (el : Nat) (xs : List Nat) :
    (∃ a ∈ xs, (h.node a).el = el ∧ (h.node a).rep = repOn h el xs) ∨
      repOn h el xs = 0 ∧ ∀ a ∈ xs, (h.node a).el ≠ el := by
  unfold repOn
  cases found : xs.find? fun a => (h.node a).el = el with
  | some a =>
      exact .inl ⟨a, List.mem_of_find?_eq_some found, by simpa using List.find?_some found, rfl⟩
  | none => exact .inr ⟨rfl, by simpa using found⟩

/-- A step that leaves the list alone. -/
theorem Inv.stay (inv : Inv s xs) (root : t.root = s.root) (heap : t.heap = s.heap)
    (used : ∀ a ∈ s.used, a ∈ t.used) (created : t.created = s.created)
    (answers : ∀ c r, t.Answers c r → s.Answers c r ∨
      ∃ a ∈ xs, (s.heap.node a).el = c ∧ (s.heap.node a).rep = r) : Inv t xs := by
  refine ⟨⟨?_, fun a member => used a (inv.used a member)⟩, ?_, ?_, created ▸ inv.distinct, ?_, ?_⟩
  · rw [root, heap]
    exact inv.registers
  · rw [heap]
    exact inv.els
  · rw [heap]
    exact inv.reps
  · rw [heap, created]
    exact inv.created
  · intro c r answer
    rw [heap]
    exact (answers c r answer).elim (inv.answers c r) id

/-- A step that puts a node for a core without one on the list. -/
theorem Inv.push (inv : Inv s xs) (fresh : s.Fresh node)
    (none : ∀ a ∈ xs, (s.heap.node a).el ≠ el) (nonzero : rep ≠ 0) (root : t.root = s.root)
    (heap : t.heap = added s.heap node s.root el rep) (used : t.used = node :: s.used)
    (created : t.created = s.created ∨ t.created = el :: s.created)
    (answers : ∀ c r, t.Answers c r → s.Answers c r ∨ c = el ∧ r = rep) : Inv t (node :: xs) := by
  have outside : node ∉ xs := fun member => fresh.2 (inv.used node member)
  have nodes : Nodes t (node :: xs) := by
    refine ⟨?_, fun a member => ?_⟩
    · rw [root, heap]
      exact inv.registers.added fresh.1 outside
    · rw [used]
      obtain rfl | old := List.mem_cons.mp member
      · exact List.mem_cons_self
      · exact List.mem_cons_of_mem _ (inv.used a old)
  have new : t.heap.node node = ⟨rep, el, (s.heap.root s.root).head⟩ := by
    rw [heap]
    exact added_node_self
  have old : ∀ a ∈ xs, t.heap.node a = s.heap.node a := by
    intro a member
    rw [heap]
    exact added_node_of_ne (ne_of_mem_of_not_mem member outside)
  have kept : ∀ c, (∃ a ∈ xs, (s.heap.node a).el = c) →
      ∃ a ∈ node :: xs, (t.heap.node a).el = c := by
    rintro c ⟨a, member, same⟩
    exact ⟨a, List.mem_cons_of_mem _ member, by rw [old a member, same]⟩
  refine ⟨nodes, ?_, ?_, ?_, ?_, ?_⟩
  · rw [List.map_cons, new, List.map_congr_left fun a member => by rw [old a member]]
    refine List.nodup_cons.mpr ⟨fun member => ?_, inv.els⟩
    obtain ⟨a, member, same⟩ := List.mem_map.mp member
    exact none a member same
  · intro a member
    obtain rfl | there := List.mem_cons.mp member
    · rw [new]
      exact nonzero
    · rw [old a there]
      exact inv.reps a there
  · obtain same | more := created
    · exact same ▸ inv.distinct
    · rw [more]
      refine List.nodup_cons.mpr ⟨fun again => ?_, inv.distinct⟩
      obtain ⟨a, member, same⟩ := inv.created el again
      exact none a member same
  · intro c member
    obtain same | more := created
    · exact kept c (inv.created c (same ▸ member))
    · rw [more] at member
      obtain rfl | before := List.mem_cons.mp member
      · exact ⟨node, List.mem_cons_self, by rw [new]⟩
      · exact kept c (inv.created c before)
  · intro c r answer
    obtain before | ⟨rfl, rfl⟩ := answers c r answer
    · obtain ⟨a, member, same, same'⟩ := inv.answers c r before
      exact ⟨a, List.mem_cons_of_mem _ member, by rw [old a member, same],
        by rw [old a member, same']⟩
    · exact ⟨node, List.mem_cons_self, by rw [new], by rw [new]⟩

theorem answers_missing {c r : Nat}
    (answer : State.Answers { s with missing := Function.update s.missing core (some rep) } c r) :
    s.Answers c r ∨ c = core ∧ r = rep := by
  obtain returned | missing | cached := answer
  · exact .inl (.inl returned)
  · simp only [Function.update_apply] at missing
    split at missing
    · rename_i here
      exact .inr ⟨here, (Option.some.inj missing).symm⟩
    · exact .inl (.inr (.inl missing))
  · exact .inl (.inr (.inr cached))

theorem Inv.handleMiss (inv : Inv s xs) (nonnull : ∀ self m, (createRep self m).1 ≠ 0)
    (moved : s.step createRep (.handleMiss core node) = some t) : ∃ ys, Inv t ys := by
  obtain ⟨⟨fresh, -⟩, moved⟩ := Option.ite_none_right_eq_some.mp moved
  rw [inv.toNodes.handleMiss core node] at moved
  obtain ⟨a, member, same, same'⟩ | ⟨none, unregistered⟩ := repOn_cases s.heap core xs
  · rw [if_neg (same' ▸ inv.reps a member)] at moved
    obtain rfl := Option.some.inj moved
    refine ⟨xs, inv.stay rfl rfl (fun a member => List.mem_cons_of_mem _ member) rfl ?_⟩
    intro c r answer
    obtain before | ⟨rfl, rfl⟩ := answers_missing (s := s) answer
    · exact .inl before
    · exact .inr ⟨a, member, same, same'⟩
  · rw [if_pos none] at moved
    obtain rfl := Option.some.inj moved
    refine ⟨node :: xs, inv.push fresh unregistered (nonnull _ _) rfl rfl rfl (.inr rfl) ?_⟩
    exact fun c r answer => answers_missing (s := s) answer

theorem Inv.cacheObj (inv : Inv s xs) (at_ : s.missing core = some rep) :
    Inv { s with
      obj := Function.update s.obj core rep
      missing := Function.update s.missing core none
      returned := (core, rep) :: s.returned } xs := by
  refine inv.stay rfl rfl (fun a member => member) rfl fun c r answer => .inl ?_
  obtain returned | missing | ⟨cached, nonzero⟩ := answer
  · obtain new | old := List.mem_cons.mp returned
    · obtain ⟨rfl, rfl⟩ := Prod.mk.inj new
      exact .inr (.inl at_)
    · exact .inl old
  · simp only [Function.update_apply] at missing
    split at missing
    · cases missing
    · exact .inr (.inl missing)
  · simp only [Function.update_apply] at cached
    split at cached
    · rename_i here
      exact .inr (.inl (by rw [here, ← cached, at_]))
    · exact .inr (.inr ⟨cached, nonzero⟩)

theorem Inv.invalidate (inv : Inv s xs) :
    Inv { s with obj := Function.update s.obj core 0 } xs := by
  refine inv.stay rfl rfl (fun a member => member) rfl fun c r answer => .inl ?_
  obtain returned | missing | ⟨cached, nonzero⟩ := answer
  · exact .inl returned
  · exact .inr (.inl missing)
  · simp only [Function.update_apply] at cached
    split at cached
    · exact absurd cached.symm nonzero
    · exact .inr (.inr ⟨cached, nonzero⟩)

theorem Inv.step {a : Action} (inv : Inv s xs) (nonnull : ∀ self m, (createRep self m).1 ≠ 0)
    (registration : Registration s a) (moved : s.step createRep a = some t) : ∃ ys, Inv t ys := by
  cases a with
  | handleMiss core node => exact inv.handleMiss nonnull moved
  | cacheObj core =>
      simp only [State.step] at moved
      split at moved
      · rename_i rep at_
        obtain rfl := Option.some.inj moved
        exact ⟨xs, inv.cacheObj at_⟩
      · cases moved
  | invalidate core =>
      obtain rfl := Option.some.inj moved
      exact ⟨xs, inv.invalidate⟩
  | addRepOn el rep node =>
      obtain ⟨nonzero, unregistered⟩ := registration
      obtain ⟨fresh, moved⟩ := Option.ite_none_right_eq_some.mp moved
      rw [addRepOn_eq inv.registers.unlocked] at moved
      obtain rfl := Option.some.inj moved
      have none : ∀ a ∈ xs, (s.heap.node a).el ≠ el := fun a member same =>
        unregistered ⟨xs, inv.registers, a, member, same⟩
      exact ⟨node :: xs, inv.push fresh none nonzero rfl rfl rfl (.inl rfl)
        fun c r answer => .inl answer⟩

theorem Initial.inv (start : Initial s) : Inv s [] := by
  refine ⟨start.nodes, List.nodup_nil, nofun, ?_, ?_, ?_⟩
  · rw [start.created]
    exact List.nodup_nil
  · rw [start.created]
    exact nofun
  · rintro c r (returned | missing | ⟨cached, nonzero⟩)
    · rw [start.returned] at returned
      cases returned
    · rw [start.missing] at missing
      cases missing
    · exact absurd (cached.symm.trans (start.obj c)) nonzero

end

/-- If `createRep` makes representatives that are not null, then each core has one. -/
theorem one_each {ρ : Type} {createRep : Nat → ρ → Nat × ρ} {s : State ρ}
    (nonnull : ∀ self m, (createRep self m).1 ≠ 0)
    (run : (machine createRep).ReachVia Registration s) : OneEach createRep s := by
  obtain ⟨xs, inv⟩ : ∃ xs, Inv s xs := by
    apply run.invariant
    · exact fun s start => ⟨[], Initial.inv start⟩
    · rintro s a t - ⟨xs, inv⟩ registration moved
      exact inv.step nonnull registration moved
  refine ⟨⟨xs, inv.registers, inv.els⟩, inv.distinct, ?_, fun as t run => ?_⟩
  · intro c r r' answer answer'
    obtain ⟨a, member, here, rep⟩ := inv.answers c r answer
    obtain ⟨a', member', here', rep'⟩ := inv.answers c r' answer'
    obtain rfl := List.inj_on_of_nodup_map inv.els member member' (here.trans here'.symm)
    exact rep.symm.trans rep'
  · obtain ⟨new, nodes, same⟩ := inv.toNodes.kept run
    exact ⟨xs, new, inv.registers, nodes.registers, same⟩

/-- The root at address 9, and no core has missed. -/
def sample : State Nat where
  root := 9
  heap := CObjEBBRootMultiImp.init ⟨fun _ => ⟨0, 0⟩, fun _ => ⟨0, 0, 0⟩⟩ 9
  mem := 20
  obj _ := 0
  missing _ := none
  used := []
  created := []
  returned := []

theorem initial_sample : Initial sample :=
  ⟨⟨_, rfl⟩, fun _ => rfl, fun _ => rfl, rfl, rfl, rfl⟩

/-- Representatives at the addresses behind `m`. -/
def sampleRep (_ m : Nat) : Nat × Nat := (m + 1, m + 1)

/-- Core 1 gets a representative by `addRepOn` before its first miss, and core 0 misses twice. -/
theorem one_each_sample :
    ∃ s, (machine sampleRep).ReachVia Registration s ∧ s.created = [0] ∧
      s.returned = [(1, 50), (0, 21), (0, 21)] ∧ OneEach sampleRep s := by
  have empty : ¬ sample.HasNode 1 := by
    rintro ⟨xs, registers, a, member, -⟩
    rw [registers.linked.unique initial_sample.nodes.registers.linked] at member
    cases member
  have ran : ((machine sampleRep).step sample (.addRepOn 1 50 4)).bind (fun s =>
      ((machine sampleRep).exec s
        [.handleMiss 0 1, .cacheObj 0, .invalidate 0, .handleMiss 0 2, .cacheObj 0,
          .handleMiss 1 3, .cacheObj 1]).map fun s => (s.created, s.returned)) =
      some ([0], [(1, 50), (0, 21), (0, 21)]) := by decide +kernel
  obtain ⟨s, added, rest⟩ := Option.bind_eq_some_iff.mp ran
  obtain ⟨t, ran, final⟩ := Option.map_eq_some_iff.mp rest
  obtain ⟨created, returned⟩ := Prod.mk.inj final
  have first : Registration sample (.addRepOn 1 50 4) := ⟨by decide, empty⟩
  have start : (machine sampleRep).ReachVia Registration s :=
    .step (.init initial_sample) first added
  have run : (machine sampleRep).ReachVia Registration t := start.exec ran (by simp [Registration])
  exact ⟨t, run, created, returned, one_each (fun _ m => Nat.succ_ne_zero m) run⟩

/-- A null representative is created again, in a second node for the same core. -/
theorem exists_two_nodes : ∃ s : State Nat,
    (machine fun _ m => (0, m)).ReachVia Registration s ∧ s.created = [0, 0] ∧
      ¬ OneEach (fun _ m => (0, m)) s := by
  have ran : ((machine fun _ m => (0, m)).exec sample
      [.handleMiss 0 1, .cacheObj 0, .handleMiss 0 2]).map State.created = some [0, 0] := by
    decide +kernel
  obtain ⟨s, ran, created⟩ := Option.map_eq_some_iff.mp ran
  have start : (machine fun _ m => (0, m)).ReachVia Registration sample := .init initial_sample
  refine ⟨s, start.exec ran (by simp [Registration]), created, fun each => ?_⟩
  have distinct := each.created
  rw [created] at distinct
  revert distinct
  decide

end EBBLib.Root.Misses
