import EBBLib.Msg.Delivery

/-!
# The representatives on the list

`findTarget` finds the representative of an event location exactly if it is on the list
of the root, and what it has cached is what it would find.
-/

namespace EBBLib.Delivery

open Chain MsgMgrPrim CObjEBBRootMultiImp

/-- The fields of a representative that do not belong to its lists. -/
def names (v : Rep) : Nat × Nat × (Fin maxPics → Nat) := (v.eventLoc, v.theRootMM, v.reps)

/-- What a search for an event location finds: the representative or null. -/
def State.known (s : State) (loc : Nat) : Nat := if s.registered loc then s.rep loc else 0

namespace State

variable (s : State) (c : Nat)

/-- Core `c` registers its representative. -/
def register (rd : Nat) : State :=
  { s with heap := added s.heap rd s.rootRefMM c (s.rep c), nodes := rd :: s.nodes }

/-- The representative of core `c` caches what a search finds. -/
def remember (loc : Nat) : State :=
  { s with reps := s.reps.setRep (s.rep c) loc (s.known loc) }

end State

/-- The representatives and the list of the root. -/
structure Roster (s : State) : Prop where
  root : Registers s.heap s.rootRefMM s.nodes
  node : ∀ a ∈ s.nodes, ∃ c, s.rep c ≠ 0 ∧ (s.heap.node a).rep = s.rep c
  created : ∀ c, s.rep c ≠ 0 → s.rep c ∈ s.objects
  location : ∀ c, s.rep c ≠ 0 → (s.reps (s.rep c)).eventLoc = c
  theRoot : ∀ c, s.rep c ≠ 0 → (s.reps (s.rep c)).theRootMM = s.rootRefMM
  cached : ∀ c (loc : Fin maxPics), s.rep c ≠ 0 → (s.reps (s.rep c)).reps loc ≠ 0 →
    (s.reps (s.rep c)).reps loc = s.known loc

/-- Representatives stay, and those that were registered are. -/
structure Grows (s t : State) : Prop where
  registered : ∀ loc, s.registered loc → t.registered loc
  rep : ∀ c, s.rep c ≠ 0 → t.rep c = s.rep c

section

variable {s t : State} {c d loc : Nat} {h : Heap} {m : Reps} {p root : Nat} {xs : List Nat}

/-- The representative of the first node for an event location, or null. -/
def repAt (h : Heap) (m : Reps) (loc : Nat) (xs : List Nat) : Nat :=
  match xs.find? fun a => (m (h.node a).rep).eventLoc = loc with
  | some a => (h.node a).rep
  | none => 0

theorem findFrom_eq (fuel : Nat) (linked : Linked h.next p xs) (enough : xs.length < fuel)
    (present : ∀ a ∈ xs, (h.node a).rep ≠ 0) :
    findFrom h m root loc fuel (xs.headD 0, (xs.head?.map fun a => (h.node a).rep).getD 0) =
      some (repAt h m loc xs) := by
  induction xs generalizing p fuel with
  | nil =>
      obtain ⟨fuel, rfl⟩ := Nat.exists_eq_add_of_lt enough
      simp [findFrom, repAt]
  | cons a xs ih =>
      obtain ⟨fuel, rfl⟩ := Nat.exists_eq_add_of_lt enough
      have next := nextRep_node root linked
      obtain ⟨rfl, nonzero, rest⟩ := linked
      have rep := present p List.mem_cons_self
      have tail := ih ((p :: xs).length + fuel) rest (by simp; omega) fun a there =>
        present a (List.mem_cons_of_mem p there)
      by_cases here : (m (h.node p).rep).eventLoc = loc
      · simp [findFrom, nonzero, rep, here, repAt]
      · simp only [List.headD_cons, List.head?_cons, Option.map_some, Option.getD_some]
        rw [findFrom, if_neg nonzero, if_neg rep, if_neg here, next, tail]
        simp [repAt, here]

/-- A core has one representative, and no other core has it. -/
theorem Roster.distinct (r : Roster s) (same : s.rep c = s.rep d) (created : s.rep c ≠ 0) :
    c = d := by
  have first := r.location c created
  rw [same] at created first
  exact first.symm.trans (r.location d created)

theorem Roster.registered_iff (r : Roster s) :
    s.registered loc ↔ s.rep loc ≠ 0 ∧ ∃ a ∈ s.nodes, (s.heap.node a).rep = s.rep loc := by
  simp only [State.registered, List.any_eq_true, decide_eq_true_eq]
  constructor
  · rintro ⟨a, there, at_⟩
    obtain ⟨d, created, same⟩ := r.node a there
    rw [same, r.location d created] at at_
    subst at_
    exact ⟨created, a, there, same⟩
  · rintro ⟨created, a, there, same⟩
    refine ⟨a, there, ?_⟩
    rw [same]
    exact r.location loc created

theorem Roster.known_eq (r : Roster s) : repAt s.heap s.reps loc s.nodes = s.known loc := by
  rw [repAt, State.known]
  cases search : s.nodes.find? fun a => (s.reps (s.heap.node a).rep).eventLoc = loc with
  | some a =>
      have there := List.mem_of_find?_eq_some search
      have at_ : (s.reps (s.heap.node a).rep).eventLoc = loc := by
        simpa using List.find?_some search
      have registered : s.registered loc := List.any_eq_true.mpr ⟨a, there, decide_eq_true at_⟩
      obtain ⟨d, created, same⟩ := r.node a there
      rw [same, r.location d created] at at_
      rw [if_pos registered, ← at_]
      exact same
  | none =>
      have unregistered : ¬ s.registered loc := by
        intro registered
        obtain ⟨a, there, at_⟩ := List.any_eq_true.mp registered
        exact List.find?_eq_none.mp search a there at_
      rw [if_neg unregistered]

theorem setRep_self {self rep : Nat}
    (same : ∀ i : Fin maxPics, i.val = loc → (m self).reps i = rep) :
    m.setRep self loc rep = m := by
  have row : (fun i : Fin maxPics => if i.val = loc then rep else (m self).reps i) =
      (m self).reps := by
    funext i
    split_ifs with here
    · exact (same i here).symm
    · rfl
  rw [Reps.setRep, row, Function.update_eq_self]

/-- A search finds the representative if it is registered. -/
theorem Roster.findTarget_eq (r : Roster s) (created : s.rep c ≠ 0) (inside : loc < maxPics) :
    s.findTarget c loc = some (s.known loc, s.reps.setRep (s.rep c) loc (s.known loc)) := by
  have present : ∀ a ∈ s.nodes, (s.heap.node a).rep ≠ 0 := by
    intro a there
    obtain ⟨d, created, same⟩ := r.node a there
    exact same ▸ created
  rw [State.findTarget, MsgMgrPrim.findTarget, Rep.entry, dif_pos inside, Option.bind_some]
  split
  · simp only [r.theRoot c created]
    rw [nextRep_head r.root, findFrom_eq _ r.root.linked (Nat.lt_succ_self _) present, r.known_eq]
    rfl
  · rename_i some
    have same := r.cached c ⟨loc, inside⟩ created some
    rw [same, setRep_self fun i here => (Fin.ext here : i = ⟨loc, inside⟩) ▸ same]

/-- A search that has a result is for a location inside of `reps`. -/
theorem Roster.findTarget_some (r : Roster s) (created : s.rep c ≠ 0) {x : Nat × Reps}
    (found : s.findTarget c loc = some x) :
    x = (s.known loc, s.reps.setRep (s.rep c) loc (s.known loc)) := by
  by_cases inside : loc < maxPics
  · rw [r.findTarget_eq created inside] at found
    exact (Option.some.inj found).symm
  · rw [State.findTarget, MsgMgrPrim.findTarget, Rep.entry, dif_neg inside] at found
    cases found

/-! ### Steps -/

theorem Roster.registered_rep (r : Roster s) (registered : s.registered loc) : s.rep loc ≠ 0 :=
  (r.registered_iff.mp registered).1

/-- A search that finds something finds the representative, which is registered. -/
theorem Roster.known_ne (r : Roster s) :
    s.known loc ≠ 0 ↔ s.registered loc ∧ s.known loc = s.rep loc := by
  rw [State.known]
  split
  · rename_i registered
    exact ⟨fun _ => ⟨registered, rfl⟩, fun _ => r.registered_rep registered⟩
  · rename_i unregistered
    simp [unregistered]

theorem known_of_registered (registered : s.registered loc) : s.known loc = s.rep loc :=
    if_pos registered

/-- A step that leaves the names of the representatives and the list alone. -/
theorem Roster.frame (r : Roster s) (list : t.heap = s.heap ∧ t.rootRefMM = s.rootRefMM ∧
    t.nodes = s.nodes) (owners : t.rep = s.rep ∧ t.objects = s.objects)
    (same : ∀ a, names (t.reps a) = names (s.reps a)) : Roster t ∧ Grows s t := by
  obtain ⟨heap, root, nodes⟩ := list
  obtain ⟨rep, objects⟩ := owners
  have location : ∀ a, (t.reps a).eventLoc = (s.reps a).eventLoc := fun a =>
    congrArg Prod.fst (same a)
  have theRoot : ∀ a, (t.reps a).theRootMM = (s.reps a).theRootMM := fun a =>
    congrArg (fun n => n.2.1) (same a)
  have cache : ∀ a, (t.reps a).reps = (s.reps a).reps := fun a =>
    congrArg (fun n => n.2.2) (same a)
  have registered : t.registered = s.registered := by
    funext loc
    simp only [State.registered, heap, nodes, location]
  refine ⟨⟨?_, ?_, ?_, ?_, ?_, ?_⟩, fun _ => registered ▸ id, fun _ _ => rep ▸ rfl⟩
  · rw [heap, root, nodes]
    exact r.root
  · rw [heap, nodes, rep]
    exact r.node
  · rw [rep, objects]
    exact r.created
  · simp only [rep, location]
    exact r.location
  · simp only [rep, theRoot, root]
    exact r.theRoot
  · simp only [rep, cache, State.known, registered]
    exact r.cached

/-- A search does not change who is registered. -/
@[simp] theorem registered_remember {l : Nat} :
    (s.remember c loc).registered l = s.registered l := by
  simp [State.registered, State.remember]

@[simp] theorem known_remember {l : Nat} : (s.remember c loc).known l = s.known l := by
  rw [State.known, State.known, registered_remember]
  rfl

theorem Roster.remember (r : Roster s) (created : s.rep c ≠ 0) : Roster (s.remember c loc) where
  root := r.root
  node := r.node
  created := r.created
  location := by simpa [State.remember] using r.location
  theRoot := by simpa [State.remember] using r.theRoot
  cached := by
    intro d l created'
    rw [known_remember]
    show ((s.reps.setRep (s.rep c) loc (s.known loc)) (s.rep d)).reps l ≠ 0 →
      ((s.reps.setRep (s.rep c) loc (s.known loc)) (s.rep d)).reps l = s.known l
    by_cases mine : s.rep d = s.rep c
    · rw [mine, Reps.setRep, Function.update_self]
      by_cases here : l.val = loc
      · simp [here]
      · simpa [here] using r.cached c l created
    · rw [Reps.setRep, Function.update_of_ne mine]
      exact r.cached d l created'

theorem grows_remember : Grows s (s.remember c loc) where
  registered l := (registered_remember (l := l)).symm ▸ id
  rep _ _ := rfl

/-- A new representative is none of those that there were. -/
theorem Roster.create_old {repRef : Nat} (r : Roster s) (first : s.rep c = 0)
    (fresh : repRef ∉ s.objects) (created : s.rep d ≠ 0) :
    (s.create c repRef).rep d = s.rep d ∧
      (s.create c repRef).reps (s.rep d) = s.reps (s.rep d) := by
  constructor
  · apply Function.update_of_ne
    rintro rfl
    exact created first
  · apply Function.update_of_ne
    rintro same
    exact fresh (same ▸ r.created d created)

theorem Roster.registered_create {repRef : Nat} (r : Roster s) (first : s.rep c = 0)
    (fresh : repRef ∉ s.objects) (registered : s.registered loc) :
    (s.create c repRef).registered loc := by
  obtain ⟨a, there, at_⟩ := List.any_eq_true.mp registered
  refine List.any_eq_true.mpr ⟨a, there, ?_⟩
  obtain ⟨d, created, same⟩ := r.node a there
  have old := (r.create_old first fresh created).2
  rw [← same] at old
  show decide (((s.create c repRef).reps (s.heap.node a).rep).eventLoc = loc) = true
  rw [old]
  exact at_

theorem Roster.grows_create {repRef : Nat} (r : Roster s) (first : s.rep c = 0)
    (fresh : repRef ∉ s.objects) : Grows s (s.create c repRef) where
  registered _ registered := r.registered_create first fresh registered
  rep _ created := (r.create_old first fresh created).1

/-- What was known stays known. -/
theorem Roster.known_mono (r : Roster s) (grows : Grows s t) (found : s.known loc ≠ 0) :
    t.known loc = s.known loc := by
  obtain ⟨registered, same⟩ := r.known_ne.mp found
  rw [same, known_of_registered (grows.registered loc registered)]
  exact grows.rep loc (r.registered_rep registered)

theorem Roster.create {repRef : Nat} (r : Roster s) (first : s.rep c = 0)
    (fresh : repRef ∉ s.objects) : Roster (s.create c repRef) := by
  have old : ∀ {d}, s.rep d ≠ 0 → (s.create c repRef).rep d = s.rep d := fun created =>
    (r.create_old first fresh created).1
  have keeps : ∀ {d}, s.rep d ≠ 0 → (s.create c repRef).reps (s.rep d) = s.reps (s.rep d) :=
    fun created => (r.create_old first fresh created).2
  have mine : (s.create c repRef).reps ((s.create c repRef).rep c) = newRep c s.rootRefMM := by
    simp [State.create]
  -- The core that gets a representative, or one that has had one before.
  have split : ∀ d, (s.create c repRef).rep d ≠ 0 → d = c ∨ s.rep d ≠ 0 := by
    intro d created
    by_cases mine : d = c
    · exact .inl mine
    · right
      simpa [State.create, mine] using created
  refine ⟨r.root, ?_, ?_, ?_, ?_, ?_⟩
  · intro a there
    obtain ⟨d, created, same⟩ := r.node a there
    exact ⟨d, (old created).symm ▸ created, same.trans (old created).symm⟩
  · intro d created
    obtain rfl | created := split d created
    · simp [State.create]
    · rw [old created]
      exact List.mem_cons_of_mem _ (r.created d created)
  · intro d created
    obtain rfl | created := split d created
    · rw [mine]
      rfl
    · rw [old created, keeps created]
      exact r.location d created
  · intro d created
    obtain rfl | created := split d created
    · rw [mine]
      rfl
    · rw [old created, keeps created]
      exact r.theRoot d created
  · intro d l created
    obtain rfl | created := split d created
    · rw [mine]
      exact fun cached => absurd rfl cached
    · rw [old created, keeps created]
      intro cached
      have same := r.cached d l created cached
      rw [r.known_mono (r.grows_create first fresh) (same ▸ cached)]
      exact same

theorem grows_register {rd : Nat} (fresh : rd ∉ s.nodes) : Grows s (s.register c rd) where
  registered loc registered := by
    obtain ⟨a, there, at_⟩ := List.any_eq_true.mp registered
    refine List.any_eq_true.mpr ⟨a, List.mem_cons_of_mem _ there, ?_⟩
    have node : (s.register c rd).heap.node a = s.heap.node a :=
      added_node_of_ne (ne_of_mem_of_not_mem there fresh)
    rw [node]
    exact at_
  rep _ _ := rfl

theorem Roster.register {rd : Nat} (r : Roster s) (created : s.rep c ≠ 0) (nonzero : rd ≠ 0)
    (fresh : rd ∉ s.nodes) : Roster (s.register c rd) := by
  refine ⟨r.root.added nonzero fresh, ?_, r.created, r.location, r.theRoot, ?_⟩
  · intro a there
    obtain rfl | there := List.mem_cons.mp there
    · exact ⟨c, created, by rw [State.register, added_node_self]⟩
    · have node : (s.register c rd).heap.node a = s.heap.node a :=
        added_node_of_ne (ne_of_mem_of_not_mem there fresh)
      rw [node]
      exact r.node a there
  · intro d l created' cached
    have same := r.cached d l created' cached
    rw [r.known_mono (grows_register fresh) (same ▸ cached)]
    exact same

theorem Initial.roster (start : Initial s) : Roster s where
  root := by
    rw [start.nodes]
    exact ⟨by simp [start.root], by rw [start.root]⟩
  node a there := by simp [start.nodes] at there
  created c created := absurd (start.rep c) created
  location c created := absurd (start.rep c) created
  theRoot c created := absurd (start.rep c) created
  cached c _ created := absurd (start.rep c) created

end

end EBBLib.Delivery
