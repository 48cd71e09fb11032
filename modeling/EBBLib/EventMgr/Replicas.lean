import EBBLib.EventMgr.Imp

/-!
# Agreement of the handler tables

The copy at start-up takes the ids of the master's table and leaves the function
numbers as the memory had them, and it is not synchronized with the publication on
the root's list. So the tables agree in the runs in which the memory happened to hold
the master's function numbers, and no registration changed the master's table between
the copy of a core and its publication.
-/

namespace EBBLib.EventMgrPrimImp

open CObjEBBRootMultiImp

/-- The two tables are the same, apart from the entry of the interprocessor interrupt. -/
def SameTable (a b : Rep) : Prop := ∀ e, e ≠ ipiVec → a.handlerInfo e = b.handlerInfo e

/-- All representatives on the root's list have the master's table. -/
def Agree (s : State) : Prop :=
  ∃ xs, Registers s.heap s.rootRef xs ∧
    ∀ r ∈ reps s.heap xs, SameTable (s.reps r) (s.reps s.theEventMgrPrimMaster)

/-- A registration that changes the table of the master, apart from the entry of the
interprocessor interrupt. -/
def Changes (master : Rep) (eventNo : Nat) (info : HandlerInfo) : Prop :=
  ∃ e : Fin maxEvents, e.val = eventNo ∧ e ≠ ipiVec ∧ (master.handlerInfo e).id = 0 ∧
    master.handlerInfo e ≠ info

/-- The copied ids come to stand beside the right function numbers, and a registration
does not miss a representative that is not on the list yet. -/
def InStep (s : State) : Action → Prop
  | .copyHandlers core => ∀ repRef mstr, s.phase core = .copying repRef mstr →
      ∀ e, e ≠ ipiVec → ((s.reps repRef).handlerInfo e).fn = ((s.reps mstr).handlerInfo e).fn
  | .registerHandler _ eventNo info => ∀ core repRef, s.phase core = .adding repRef →
      repRef = s.theEventMgrPrimMaster ∨ ¬ Changes (s.reps s.theEventMgrPrimMaster) eventNo info
  | _ => True

/-! ### The steps -/

/-- A lock guards the other fields, which stay. -/
theorem setLock_only (m : Reps) (rep v q : Nat) :
    m.setLock rep v q = { m q with lock := (m.setLock rep v q).lock } := by
  by_cases here : q = rep <;> simp [Reps.setLock, here]

@[simp] theorem setLock_master (m : Reps) (rep v q : Nat) :
    (m.setLock rep v q).master = (m q).master := by rw [setLock_only]

@[simp] theorem setLock_theRoot (m : Reps) (rep v q : Nat) :
    (m.setLock rep v q).theRoot = (m q).theRoot := by rw [setLock_only]

@[simp] theorem setLock_handlerInfo (m : Reps) (rep v q : Nat) :
    (m.setLock rep v q).handlerInfo = (m q).handlerInfo := by rw [setLock_only]

/-- A representative that is filled in and unlocked is free, whether or not it was locked. -/
theorem spinUnlock_update_self {m : Reps} {rep : Nat} {r : Rep} (lock : r.lock ≤ 1) :
    spinUnlock (Function.update m rep r) rep rep = { r with lock := 0 } := by
  obtain free | held := Nat.le_one_iff_eq_zero_or_eq_one.mp lock
  · have kept : { r with lock := 0 } = r := by rw [← free]
    rw [kept]
    simp [spinUnlock, free]
  · simp [spinUnlock, Reps.setLock, held]

theorem spinUnlock_update_of_ne {m : Reps} {rep q : Nat} {r : Rep} (other : q ≠ rep) :
    spinUnlock (Function.update m rep r) rep q = m q := by
  simp only [spinUnlock]
  split <;> simp [Reps.setLock, other]

/-- The entry `e` replaced in the tables of `rs`. -/
def broadcast (m : Reps) (rs : List Nat) (e : Fin maxEvents) (info : HandlerInfo) : Reps :=
  fun q => if q ∈ rs then
    { m q with handlerInfo := Function.update (m q).handlerInfo e info } else m q

@[simp] theorem broadcast_nil (m : Reps) (e : Fin maxEvents) (info : HandlerInfo) :
    broadcast m [] e info = m := by
  funext q
  simp [broadcast]

theorem broadcast_cons (m : Reps) (r : Nat) (rs : List Nat) (e : Fin maxEvents)
    (info : HandlerInfo) :
    broadcast (m.setHandler r e info) rs e info = broadcast m (r :: rs) e info := by
  funext q
  by_cases here : q = r
  · subst here
    by_cases again : q ∈ rs <;> simp [broadcast, Reps.setHandler, again]
  · by_cases later : q ∈ rs <;> simp [broadcast, Reps.setHandler, here, later]

section

variable {h : Heap} {m m' : Reps} {root rep repRef mstr : Nat} {xs : List Nat}
variable {e : Fin maxEvents} {info : HandlerInfo}

theorem replicateFrom_eq (fuel : Nat) {p : Nat} (linked : Chain.Linked h.next p xs)
    (enough : xs.length < fuel) :
    replicateFrom h root e info fuel
        (xs.headD 0, (xs.head?.map fun a => (h.node a).rep).getD 0) m =
      some (broadcast m (reps h xs) e info) := by
  induction xs generalizing p fuel m with
  | nil =>
      obtain ⟨fuel, rfl⟩ := Nat.exists_eq_add_of_lt enough
      simp [replicateFrom, reps]
  | cons a xs ih =>
      obtain ⟨fuel, rfl⟩ := Nat.exists_eq_add_of_lt enough
      have nonzero : a ≠ 0 := linked.2.1
      have tail := ih ((a :: xs).length + fuel) (m := m.setHandler (h.node a).rep e info)
        linked.2.2 (by simp; omega)
      simp only [List.headD_cons, List.head?_cons, Option.map_some, Option.getD_some,
        replicateFrom, if_neg nonzero, nextRep_node root linked, tail, broadcast_cons]
      simp [reps]

/-- Replication reaches every representative on the list. -/
theorem lockedReplicateHandler_eq {fuel : Nat} (r : Registers h root xs)
    (enough : xs.length < fuel) :
    lockedReplicateHandler fuel h m root e info = some (broadcast m (reps h xs) e info) := by
  rw [lockedReplicateHandler, nextRep_head r]
  exact replicateFrom_eq fuel r.linked enough

theorem spinLock_some (locked : spinLock m rep = some m') :
    (m rep).lock = 0 ∧ m' = m.setLock rep 1 := by
  rw [spinLock, Option.ite_none_right_eq_some, Option.some.injEq] at locked
  exact ⟨locked.1, locked.2.symm⟩

theorem spinUnlock_setLock (free : (m rep).lock = 0) :
    spinUnlock (m.setLock rep 1) rep = m := by
  simp [spinUnlock, Reps.setLock, Function.update_idem, ← free]

/-- A change of tables leaves the locks as they are. -/
theorem broadcast_setLock (rs : List Nat) (v : Nat) :
    broadcast (m.setLock rep v) rs e info = (broadcast m rs e info).setLock rep v := by
  funext q
  by_cases same : q = rep
  · subst same
    by_cases here : q ∈ rs <;> simp [broadcast, Reps.setLock, here]
  · by_cases here : q ∈ rs <;> simp [broadcast, Reps.setLock, same, here]

/-- A change of tables leaves the other fields as they are. -/
theorem broadcast_only (m : Reps) (rs : List Nat) (e : Fin maxEvents) (info : HandlerInfo)
    (q : Nat) : broadcast m rs e info q =
      { m q with handlerInfo := (broadcast m rs e info q).handlerInfo } := by
  rw [broadcast]
  split <;> rfl

@[simp] theorem broadcast_lock (m : Reps) (rs : List Nat) (q : Nat) :
    (broadcast m rs e info q).lock = (m q).lock := by rw [broadcast_only]

@[simp] theorem broadcast_theRoot (m : Reps) (rs : List Nat) (q : Nat) :
    (broadcast m rs e info q).theRoot = (m q).theRoot := by rw [broadcast_only]

/-- An event that is out of range or has a handler is not registered. -/
theorem lockedRegisterHandler_taken {fuel master eventNo : Nat}
    (taken : ∀ inRange : eventNo < maxEvents, ((m master).handlerInfo ⟨eventNo, inRange⟩).id ≠ 0) :
    lockedRegisterHandler fuel h m master eventNo info = some (EBBRC.badParameter, m) := by
  rw [lockedRegisterHandler]
  by_cases inRange : eventNo < maxEvents
  · rw [dif_pos inRange]
    exact if_pos (taken inRange)
  · rw [dif_neg inRange]

/-- A registration of a free event reaches the master and every representative on the list. -/
theorem lockedRegisterHandler_free {fuel master eventNo : Nat} (r : Registers h root xs)
    (enough : xs.length < fuel) (rooted : (m master).theRoot = root)
    (inRange : eventNo < maxEvents)
    (free : ((m master).handlerInfo ⟨eventNo, inRange⟩).id = 0) :
    lockedRegisterHandler fuel h m master eventNo info =
      some (EBBRC.ok, broadcast m (master :: reps h xs) ⟨eventNo, inRange⟩ info) := by
  have rooted' : ((m.setHandler master ⟨eventNo, inRange⟩ info) master).theRoot = root := by
    simpa [Reps.setHandler] using rooted
  rw [lockedRegisterHandler, dif_pos inRange]
  simp only [free, ne_eq, not_true_eq_false, if_false, rooted', lockedReplicateHandler_eq r enough,
    broadcast_cons, Option.map_some]

/-- A registration leaves all tables alone, or replaces a free entry in the tables of
the master and of every representative on the list. -/
theorem registerHandler_some {fuel self eventNo : Nat} {rc : EBBRC} (r : Registers h root xs)
    (enough : xs.length < fuel) (rooted : (m (m self).master).theRoot = root)
    (ran : registerHandler fuel h m self eventNo info = some (rc, m')) :
    (m (m self).master).lock = 0 ∧
      (m' = m ∨ ∃ e : Fin maxEvents, e.val = eventNo ∧
        ((m (m self).master).handlerInfo e).id = 0 ∧
        m' = broadcast m ((m self).master :: reps h xs) e info) := by
  simp only [registerHandler, Option.bind_eq_bind, Option.bind_eq_some_iff] at ran
  obtain ⟨m₁, locked, ⟨rc', m₂⟩, body, same⟩ := ran
  obtain ⟨free, rfl⟩ := spinLock_some locked
  simp only [Option.some.injEq, Prod.mk.injEq] at same
  obtain ⟨rfl, rfl⟩ := same
  refine ⟨free, ?_⟩
  by_cases unused : ∃ inRange : eventNo < maxEvents,
      ((m (m self).master).handlerInfo ⟨eventNo, inRange⟩).id = 0
  · obtain ⟨inRange, unused⟩ := unused
    rw [lockedRegisterHandler_free r enough (by simpa using rooted) inRange (by simpa using unused),
      Option.some.injEq, Prod.mk.injEq] at body
    obtain ⟨-, rfl⟩ := body
    refine .inr ⟨⟨eventNo, inRange⟩, rfl, unused, ?_⟩
    rw [broadcast_setLock, spinUnlock_setLock (by simpa using free)]
  · have taken : ∀ inRange : eventNo < maxEvents,
        ((m.setLock (m self).master 1 (m self).master).handlerInfo ⟨eventNo, inRange⟩).id ≠ 0 := by
      intro inRange
      rw [setLock_handlerInfo]
      exact fun none => unused ⟨inRange, none⟩
    rw [lockedRegisterHandler_taken taken, Option.some.injEq, Prod.mk.injEq] at body
    obtain ⟨-, rfl⟩ := body
    exact .inl (spinUnlock_setLock free)

theorem allocRep_some {fresh : Rep} (ran : allocRep m repRef root fresh = some m') :
    (m' repRef).lock = 1 ∧ (m' repRef).theRoot = root ∧ (m' repRef).ipiVecNo = ipiVec ∧
      ∀ q, q ≠ repRef → m' q = m q := by
  obtain ⟨_, rfl⟩ := spinLock_some ran
  refine ⟨by simp [Reps.setLock], by simp [Reps.setLock], by simp [Reps.setLock], ?_⟩
  intro q other
  simp [Reps.setLock, other]

/-- The copy replaces the ids, and needs both locks. -/
theorem copyHandlers_some (ran : copyHandlers m repRef mstr = some m') :
    (m mstr).lock = 0 ∧ repRef ≠ mstr ∧
      m' = Function.update m repRef { m repRef with
        handlerInfo := fun i =>
          { (m repRef).handlerInfo i with id := ((m mstr).handlerInfo i).id } } := by
  simp only [copyHandlers, Option.bind_eq_bind, Option.bind_eq_some_iff, Option.some.injEq] at ran
  obtain ⟨m₁, first, m₂, second, rfl⟩ := ran
  obtain ⟨free, rfl⟩ := spinLock_some first
  obtain ⟨free', rfl⟩ := spinLock_some second
  have other : repRef ≠ mstr := by
    rintro rfl
    simp [Reps.setLock] at free'
  refine ⟨free, other, ?_⟩
  have own : (m repRef).lock = 0 := by simpa [Reps.setLock, other] using free'
  funext q
  by_cases copied : q = repRef
  · subst copied
    simp [spinUnlock, Reps.setLock, other, Ne.symm other, ← own]
  · by_cases mine : q = mstr
    · subst mine
      simp [spinUnlock, Reps.setLock, other, Ne.symm other, ← free]
    · simp [spinUnlock, Reps.setLock, other, Ne.symm other, copied, mine]

end

/-! ### The invariant -/

/-- A representative that has found its master. -/
structure Configured (s : State) (r : Nat) : Prop where
  used : r ∈ s.used
  master : (s.reps r).master = s.theEventMgrPrimMaster
  ipiVecNo : (s.reps r).ipiVecNo = ipiVec

/-- A representative with the master's table. -/
structure Replica (s : State) (r : Nat) : Prop extends Configured s r where
  free : (s.reps s.theEventMgrPrimMaster).lock = 0
  table : SameTable (s.reps r) (s.reps s.theEventMgrPrimMaster)

/-- What holds of the representative of a core in each phase. -/
def PhaseOk (s : State) (listed : List Nat) : Phase → Prop
  | .idle => True
  | .initializing r => r = s.theEventMgrPrimMaster ∧ r ∈ s.used ∧ (s.reps r).lock = 1 ∧
      (s.reps r).ipiVecNo = ipiVec
  | .copying r mstr => mstr = s.theEventMgrPrimMaster ∧ Configured s r
  | .adding r => Replica s r
  | .started r => r ∈ listed

/-- The memory in use is the same in both states, and so is the master. -/
structure Keeps (s t : State) : Prop where
  used : s.used ⊆ t.used
  master : t.theEventMgrPrimMaster = s.theEventMgrPrimMaster
  inUse : s.theEventMgrPrimMaster ∈ s.used
  reps : ∀ q ∈ s.used, t.reps q = s.reps q

section

variable {s t : State} {r : Nat}

theorem Configured.keep (ok : Configured s r) (k : Keeps s t) : Configured t r := by
  have same := k.reps r ok.used
  refine ⟨k.used ok.used, ?_, ?_⟩
  · rw [same, k.master, ok.master]
  · rw [same, ok.ipiVecNo]

theorem Replica.keep (ok : Replica s r) (k : Keeps s t) : Replica t r := by
  have same := k.reps r ok.used
  have sameMaster := k.reps _ k.inUse
  refine ⟨ok.toConfigured.keep k, ?_, ?_⟩
  · rw [k.master, sameMaster, ok.free]
  · rw [k.master, same, sameMaster]
    exact ok.table

theorem PhaseOk.keep {listed listed' : List Nat} {p : Phase} (ok : PhaseOk s listed p)
    (k : Keeps s t) (more : listed ⊆ listed') : PhaseOk t listed' p := by
  cases p with
  | idle => trivial
  | initializing q =>
      obtain ⟨isMaster, used, held, vec⟩ := ok
      have same := k.reps q used
      exact ⟨isMaster.trans k.master.symm, k.used used, same ▸ held, same ▸ vec⟩
  | copying q mstr => exact ⟨ok.1.trans k.master.symm, ok.2.keep k⟩
  | adding q => exact Replica.keep ok k
  | started q => exact more ok

end

/-- The representatives on the list `xs` and those that are about to be put there have
the master's table. While the master initializes itself, there are none. -/
structure Replicated (s : State) (xs : List Nat) : Prop where
  registers : Registers s.heap s.rootRef xs
  created : ∀ a ∈ xs, a ∈ s.used
  masterless : s.theEventMgrPrimMaster = 0 → xs = [] ∧ ∀ c, s.phase c = .idle
  rooted : s.theEventMgrPrimMaster ≠ 0 → s.theEventMgrPrimMaster ∈ s.used ∧
    (s.reps s.theEventMgrPrimMaster).theRoot = s.rootRef
  single : ∀ c c' r r', s.phase c = .initializing r → s.phase c' = .initializing r' → c = c'
  phases : ∀ c, PhaseOk s (reps s.heap xs) (s.phase c)
  listed : ∀ r ∈ reps s.heap xs, Replica s r

namespace Replicated

variable {s t : State} {xs : List Nat} {core repRef mstr : Nat}

theorem length_le (r : Replicated s xs) : xs.length ≤ s.used.length :=
  r.registers.length_le r.created

theorem phase (r : Replicated s xs) {p : Phase} (at_ : s.phase core = p) :
    PhaseOk s (reps s.heap xs) p :=
  at_ ▸ r.phases core

/-- A core that is not idle has chosen a master. -/
theorem chosen (r : Replicated s xs) {p : Phase} (at_ : s.phase core = p) (busy : p ≠ .idle) :
    s.theEventMgrPrimMaster ≠ 0 := by
  intro none
  exact busy (at_ ▸ (r.masterless none).2 core)

/-- The steps that change the tables only. -/
theorem setReps (r : Replicated s xs) (m : Reps)
    (only : ∀ q, m q = { s.reps q with handlerInfo := (m q).handlerInfo })
    (table : ∀ q, q ∈ reps s.heap xs ∨ (∃ c, s.phase c = .adding q) → Replica s q →
      SameTable (m q) (m s.theEventMgrPrimMaster)) :
    Replicated { s with reps := m } xs := by
  have lock : ∀ q, (m q).lock = (s.reps q).lock := fun q => by rw [only q]
  have root : ∀ q, (m q).theRoot = (s.reps q).theRoot := fun q => by rw [only q]
  have master : ∀ q, (m q).master = (s.reps q).master := fun q => by rw [only q]
  have ipiVecNo : ∀ q, (m q).ipiVecNo = (s.reps q).ipiVecNo := fun q => by rw [only q]
  have configured : ∀ q, Configured s q → Configured { s with reps := m } q := by
    intro q ok
    exact ⟨ok.used, (master q).trans ok.master, (ipiVecNo q).trans ok.ipiVecNo⟩
  have replica : ∀ q, q ∈ reps s.heap xs ∨ (∃ c, s.phase c = .adding q) → Replica s q →
      Replica { s with reps := m } q := by
    intro q which ok
    exact ⟨configured q ok.toConfigured, (lock _).trans ok.free, table q which ok⟩
  refine ⟨r.registers, r.created, r.masterless, ?_, r.single, ?_, ?_⟩
  · intro chosen
    exact ⟨(r.rooted chosen).1, (root _).trans (r.rooted chosen).2⟩
  · intro c
    have before := r.phases c
    show PhaseOk { s with reps := m } (reps s.heap xs) (s.phase c)
    cases now : s.phase c with
    | idle => trivial
    | initializing q =>
        rw [now] at before
        obtain ⟨isMaster, used, held, vec⟩ := before
        exact ⟨isMaster, used, (lock q).trans held, (ipiVecNo q).trans vec⟩
    | copying q mstr =>
        rw [now] at before
        exact ⟨before.1, configured q before.2⟩
    | adding q =>
        rw [now] at before
        exact replica q (.inr ⟨c, now⟩) before
    | started q =>
        rw [now] at before
        exact before
  · intro q mem
    exact replica q (.inl mem) (r.listed q mem)

/-- A core moves to a phase that describes it. -/
theorem setPhase (r : Replicated s xs) {p : Phase} (inUse : s.theEventMgrPrimMaster ∈ s.used)
    (chosen : s.theEventMgrPrimMaster ≠ 0) (own : PhaseOk s (reps s.heap xs) p)
    (done : ∀ q, p ≠ .initializing q) :
    Replicated { s with phase := Function.update s.phase core p } xs := by
  have k : Keeps s { s with phase := Function.update s.phase core p } :=
    ⟨fun _ mem => mem, rfl, inUse, fun _ _ => rfl⟩
  have before : ∀ c q, Function.update s.phase core p c = .initializing q →
      s.phase c = .initializing q := by
    intro c q now
    by_cases mine : c = core
    · rw [mine, Function.update_self] at now
      exact absurd now (done q)
    · rwa [Function.update_of_ne mine] at now
  refine ⟨r.registers, r.created, fun none => absurd none chosen, r.rooted, ?_, ?_, ?_⟩
  · intro c c' q q' here here'
    exact r.single c c' q q' (before c q here) (before c' q' here')
  · intro c
    show PhaseOk _ _ (Function.update s.phase core p c)
    by_cases mine : c = core
    · rw [mine, Function.update_self]
      exact own.keep k fun _ mem => mem
    · rw [Function.update_of_ne mine]
      exact (r.phases c).keep k fun _ mem => mem
  · intro q mem
    exact (r.listed q mem).keep k

/-- The list and the memory in use grow. -/
theorem grow (r : Replicated s xs) (k : Keeps s t) (ys : List Nat)
    (root : t.rootRef = s.rootRef) (phase : t.phase = s.phase)
    (registers : Registers t.heap t.rootRef ys) (created : ∀ a ∈ ys, a ∈ t.used)
    (chosen : s.theEventMgrPrimMaster ≠ 0) (more : reps s.heap xs ⊆ reps t.heap ys)
    (listed : ∀ q ∈ reps t.heap ys, q ∈ reps s.heap xs ∨ Replica s q) : Replicated t ys := by
  refine ⟨registers, created, ?_, ?_, ?_, ?_, ?_⟩
  · intro none
    exact absurd (k.master ▸ none) chosen
  · intro _
    rw [k.master, root, k.reps _ k.inUse]
    exact ⟨k.used k.inUse, (r.rooted chosen).2⟩
  · rw [phase]
    exact r.single
  · intro c
    rw [phase]
    exact (r.phases c).keep k more
  · intro q mem
    obtain old | new := listed q mem
    · exact (r.listed q old).keep k
    · exact new.keep k

theorem start (init : machine.init s) : Replicated s [] := by
  obtain ⟨⟨h, heap⟩, none, idle, _⟩ := init
  refine ⟨?_, by simp, fun _ => ⟨rfl, idle⟩, fun chosen => absurd none chosen, ?_, ?_,
    by simp [reps]⟩
  · rw [heap]
    exact registers_init h s.rootRef
  · intro c c' q q' here
    rw [idle c] at here
    cases here
  · intro c
    rw [idle c]
    trivial

theorem createRep (r : Replicated s xs) {fresh : Rep}
    (moved : step s (.createRep core repRef fresh) = some t) : Replicated t xs := by
  simp only [step, Option.ite_none_right_eq_some, Option.map_eq_some_iff] at moved
  obtain ⟨⟨idle, nonzero, unused⟩, m, allocated, rfl⟩ := moved
  obtain ⟨held, root, vec, same⟩ := allocRep_some allocated
  by_cases first : s.theEventMgrPrimMaster = 0
  · obtain ⟨rfl, allIdle⟩ := r.masterless first
    rw [chooseMaster, if_pos first]
    refine ⟨r.registers, by simp, fun none => absurd none nonzero, fun _ => ⟨by simp, root⟩, ?_, ?_,
      by simp [reps]⟩
    · intro c c' q q' here here'
      have alone : ∀ c q, Function.update s.phase core (.initializing repRef) c =
          .initializing q → c = core := by
        intro c q here
        by_contra other
        simp [Function.update_of_ne other, allIdle c] at here
      exact (alone c q here).trans (alone c' q' here').symm
    · intro c
      show PhaseOk _ _ (Function.update s.phase core (.initializing repRef) c)
      by_cases mine : c = core
      · rw [mine, Function.update_self]
        exact ⟨rfl, by simp, held, vec⟩
      · rw [Function.update_of_ne mine, allIdle c]
        trivial
  · rw [chooseMaster, if_neg first]
    have inUse := (r.rooted first).1
    have changed : ∀ q, q ≠ repRef → setMaster m repRef s.theEventMgrPrimMaster q = s.reps q :=
      fun q other => (spinUnlock_update_of_ne other).trans (same q other)
    have own : setMaster m repRef s.theEventMgrPrimMaster repRef =
        { m repRef with lock := 0, master := s.theEventMgrPrimMaster } :=
      spinUnlock_update_self (Nat.le_of_eq held)
    have k : Keeps s { s with reps := setMaster m repRef s.theEventMgrPrimMaster,
                              used := repRef :: s.used } := by
      refine ⟨fun _ mem => List.mem_cons_of_mem _ mem, rfl, inUse, fun q mem => ?_⟩
      exact changed q (ne_of_mem_of_not_mem mem unused)
    have grown :=
        r.grow k xs rfl rfl r.registers (fun a mem => List.mem_cons_of_mem _ (r.created a mem))
      first (fun _ mem => mem) (fun _ mem => .inl mem)
    refine grown.setPhase (k.used inUse) first ⟨rfl, ?_⟩ (by simp)
    refine ⟨List.mem_cons_self, ?_, ?_⟩
    · show (setMaster m repRef s.theEventMgrPrimMaster repRef).master = _
      rw [own]
    · show (setMaster m repRef s.theEventMgrPrimMaster repRef).ipiVecNo = _
      rw [own]
      exact vec

theorem initMaster (r : Replicated s xs) (moved : step s (.initMaster core) = some t) :
    Replicated t xs := by
  simp only [step] at moved
  split at moved
  · rename_i repRef now
    obtain rfl := Option.some.inj moved
    obtain ⟨rfl, used, held, vec⟩ := r.phase now
    have chosen := r.chosen now (by simp)
    -- Nothing is on the list or about to be put there, since the lock is held.
    have nothing : ∀ q, ¬ Replica s q := by
      intro q ok
      exact absurd (held.symm.trans ok.free) (by decide)
    have unlisted : ∀ q, q ∉ reps s.heap xs := fun q mem => nothing q (r.listed q mem)
    have changed : ∀ q, q ≠ s.theEventMgrPrimMaster →
        EventMgrPrimImp.initMaster s.reps s.theEventMgrPrimMaster q = s.reps q :=
      fun q => spinUnlock_update_of_ne
    have own : EventMgrPrimImp.initMaster s.reps s.theEventMgrPrimMaster s.theEventMgrPrimMaster =
        { s.reps s.theEventMgrPrimMaster with
          lock := 0, master := s.theEventMgrPrimMaster,
          handlerInfo := fun _ => { id := 0, fn := noFuncNum } } :=
      spinUnlock_update_self (Nat.le_of_eq held)
    have last : ∀ c q, Function.update s.phase core (.adding s.theEventMgrPrimMaster) c ≠
        .initializing q := by
      intro c q here
      by_cases mine : c = core
      · simp [mine] at here
      · rw [Function.update_of_ne mine] at here
        exact mine (r.single c core q _ here now)
    refine ⟨r.registers, r.created, fun none => absurd none chosen, ?_, ?_, ?_, ?_⟩
    · intro _
      refine ⟨used, ?_⟩
      show (EventMgrPrimImp.initMaster s.reps _ _).theRoot = _
      rw [own]
      exact (r.rooted chosen).2
    · intro c c' q q' here
      exact absurd here (last c q)
    · intro c
      show PhaseOk _ _ (Function.update s.phase core (.adding s.theEventMgrPrimMaster) c)
      by_cases mine : c = core
      · rw [mine, Function.update_self]
        refine ⟨⟨used, ?_, ?_⟩, ?_, fun _ _ => rfl⟩
        · show (EventMgrPrimImp.initMaster s.reps _ _).master = _
          rw [own]
        · show (EventMgrPrimImp.initMaster s.reps _ _).ipiVecNo = _
          rw [own]
          exact vec
        · show (EventMgrPrimImp.initMaster s.reps _ _).lock = _
          rw [own]
      · rw [Function.update_of_ne mine]
        have before := r.phases c
        cases phase : s.phase c with
        | idle => trivial
        | initializing q => exact absurd (r.single c core q _ phase now) mine
        | copying q mstr =>
            rw [phase] at before
            obtain ⟨isMaster, ok⟩ := before
            refine ⟨isMaster, ok.used, ?_, ?_⟩
            · show (EventMgrPrimImp.initMaster s.reps _ q).master = s.theEventMgrPrimMaster
              by_cases itself : q = s.theEventMgrPrimMaster
              · rw [itself, own]
              · rw [changed q itself, ok.master]
            · show (EventMgrPrimImp.initMaster s.reps _ q).ipiVecNo = ipiVec
              by_cases itself : q = s.theEventMgrPrimMaster
              · rw [itself, own]
                exact vec
              · rw [changed q itself, ok.ipiVecNo]
        | adding q =>
            rw [phase] at before
            exact absurd before (nothing q)
        | started q =>
            rw [phase] at before
            exact absurd before (unlisted q)
    · intro q mem
      exact absurd mem (unlisted q)
  · cases moved

theorem copyHandlers (r : Replicated s xs) (inStep : InStep s (.copyHandlers core))
    (moved : step s (.copyHandlers core) = some t) : Replicated t xs := by
  simp only [step] at moved
  split at moved
  · rename_i repRef mstr now
    obtain ⟨m, copied, rfl⟩ := Option.map_eq_some_iff.mp moved
    obtain ⟨free, other, rfl⟩ := copyHandlers_some copied
    have fns := inStep repRef mstr now
    obtain ⟨rfl, ok⟩ := r.phase now
    have chosen := r.chosen now (by simp)
    let rep : Rep := { s.reps repRef with
      handlerInfo := fun i =>
        { (s.reps repRef).handlerInfo i with
          id := ((s.reps s.theEventMgrPrimMaster).handlerInfo i).id } }
    have table : SameTable rep (s.reps s.theEventMgrPrimMaster) := by
      intro e notIpi
      show HandlerInfo.mk _ ((s.reps repRef).handlerInfo e).fn = _
      rw [fns e notIpi]
    have written : Replicated { s with reps := Function.update s.reps repRef rep } xs := by
      apply r.setReps
      · intro q
        by_cases here : q = repRef <;> simp [here, rep]
      · intro q _ replica
        rw [Function.update_of_ne (Ne.symm other)]
        by_cases here : q = repRef
        · rw [here, Function.update_self]
          exact table
        · rw [Function.update_of_ne here]
          exact replica.table
    refine written.setPhase (r.rooted chosen).1 chosen ?_ (by simp)
    refine ⟨⟨ok.used, ?_, ?_⟩, ?_, ?_⟩
    · simpa [rep] using ok.master
    · simpa [rep] using ok.ipiVecNo
    · simpa [Function.update_of_ne (Ne.symm other)] using free
    · simpa [Function.update_of_ne (Ne.symm other)] using table
  · cases moved

theorem addRepOn (r : Replicated s xs) {node : Nat}
    (moved : step s (.addRepOn core node) = some t) : ∃ ys, Replicated t ys := by
  simp only [step] at moved
  split at moved
  · rename_i repRef now
    simp only [Option.ite_none_right_eq_some, Option.map_eq_some_iff] at moved
    obtain ⟨⟨nonzero, unused⟩, heap, put, rfl⟩ := moved
    rw [addRepOn_eq r.registers.unlocked, Option.some.injEq] at put
    obtain rfl := put
    have chosen := r.chosen now (by simp)
    have inUse := (r.rooted chosen).1
    have replica : Replica s repRef := r.phase now
    have outside : node ∉ xs := fun mem => unused (r.created node mem)
    have list := reps_added s.heap s.rootRef core repRef outside
    have k : Keeps s { s with heap := added s.heap node s.rootRef core repRef,
                              used := node :: s.used } :=
      ⟨fun _ mem => List.mem_cons_of_mem _ mem, rfl, inUse, fun _ _ => rfl⟩
    have grown := r.grow k (node :: xs) rfl rfl (r.registers.added nonzero outside)
      (by simpa using fun a mem => .inr (r.created a mem)) chosen
      (by simp [list]) (by simpa [list] using ⟨.inr replica, fun q mem => .inl mem⟩)
    exact ⟨_, grown.setPhase (k.used inUse) chosen (by simp [PhaseOk, list]) (by simp)⟩
  · cases moved

theorem registerHandler (r : Replicated s xs) {eventNo : Nat} {info : HandlerInfo}
    (inStep : InStep s (.registerHandler core eventNo info))
    (moved : step s (.registerHandler core eventNo info) = some t) : Replicated t xs := by
  simp only [step] at moved
  split at moved
  · rename_i self now
    obtain ⟨⟨rc, m⟩, ran, rfl⟩ := Option.map_eq_some_iff.mp moved
    have chosen := r.chosen now (by simp)
    have caller : Replica s self := r.listed self (r.phase now)
    have rooted : (s.reps (s.reps self).master).theRoot = s.rootRef := by
      rw [caller.master]
      exact (r.rooted chosen).2
    obtain ⟨-, rfl | ⟨e, isEvent, unused, rfl⟩⟩ :=
      registerHandler_some r.registers (Nat.lt_succ_of_le r.length_le) rooted ran
    · exact r
    · rw [caller.master] at unused ⊢
      apply r.setReps
      · intro q
        simp only [broadcast]
        split <;> rfl
      · intro q which replica d notIpi
        show (broadcast s.reps (s.theEventMgrPrimMaster :: reps s.heap xs) e info q).handlerInfo d =
          (broadcast s.reps (s.theEventMgrPrimMaster :: reps s.heap xs) e info
            s.theEventMgrPrimMaster).handlerInfo d
        have before := replica.table d notIpi
        have master : broadcast s.reps (s.theEventMgrPrimMaster :: reps s.heap xs) e info
            s.theEventMgrPrimMaster = { s.reps s.theEventMgrPrimMaster with
              handlerInfo := Function.update
                (s.reps s.theEventMgrPrimMaster).handlerInfo e info } := by
          simp [broadcast]
        rw [master]
        by_cases reached : q ∈ s.theEventMgrPrimMaster :: reps s.heap xs
        · rw [broadcast, if_pos reached]
          by_cases here : d = e
          · simp [here]
          · simpa [here] using before
        · -- The representative is not on the list yet, so the step must not matter to it.
          rw [broadcast, if_neg reached]
          simp only [List.mem_cons, not_or] at reached
          obtain ⟨c, adding⟩ := which.resolve_left reached.2
          by_cases here : d = e
          · subst here
            have unchanged := (inStep c q adding).resolve_left reached.1
            by_contra differs
            refine unchanged ⟨d, isEvent, notIpi, unused, fun same => differs ?_⟩
            simpa using before.trans same
          · simpa [here] using before
  · cases moved

theorem registerIPIHandler (r : Replicated s xs) {info : HandlerInfo}
    (moved : step s (.registerIPIHandler core info) = some t) : Replicated t xs := by
  simp only [step] at moved
  split at moved
  · rename_i self now
    obtain rfl := Option.some.inj moved
    have caller : Replica s self := r.listed self (r.phase now)
    rw [EventMgrPrimImp.registerIPIHandler, caller.ipiVecNo]
    have others : ∀ q d, d ≠ ipiVec → ((s.reps.setHandler self ipiVec info) q).handlerInfo d =
        (s.reps q).handlerInfo d := by
      intro q d notIpi
      by_cases here : q = self <;> simp [Reps.setHandler, here, notIpi]
    apply r.setReps
    · intro q
      by_cases here : q = self <;> simp [Reps.setHandler, here]
    · intro q _ replica d notIpi
      rw [others q d notIpi, others _ d notIpi]
      exact replica.table d notIpi
  · cases moved

theorem step {a : Action} (r : Replicated s xs) (inStep : InStep s a)
    (moved : step s a = some t) : ∃ ys, Replicated t ys := by
  cases a with
  | createRep core repRef fresh => exact ⟨xs, r.createRep moved⟩
  | initMaster core => exact ⟨xs, r.initMaster moved⟩
  | copyHandlers core => exact ⟨xs, r.copyHandlers inStep moved⟩
  | addRepOn core node => exact r.addRepOn moved
  | registerHandler core eventNo info => exact ⟨xs, r.registerHandler inStep moved⟩
  | registerIPIHandler core info => exact ⟨xs, r.registerIPIHandler moved⟩

end Replicated

theorem replicated_of_reach {s : State} (reached : machine.ReachVia InStep s) :
    ∃ xs, Replicated s xs :=
  reached.invariant (I := fun s => ∃ xs, Replicated s xs)
    (fun _ init => ⟨[], Replicated.start init⟩)
    fun _ _ _ _ ⟨_, replicated⟩ inStep moved => replicated.step inStep moved

theorem dispatchEventLocal_congr {a b : Rep} (same : SameTable a b) {e : Fin maxEvents}
    (notIpi : e ≠ ipiVec) : dispatchEventLocal a e = dispatchEventLocal b e := by
  rw [dispatchEventLocal, dispatchEventLocal, same e notIpi]

/-- In every run that stays in step, all representatives on the list have the table of
the master, and an event is dispatched to the same method of the same handler by each
of them. -/
theorem agree_of_inStep {s : State} (reached : machine.ReachVia InStep s) :
    Agree s ∧ ∀ xs, Registers s.heap s.rootRef xs → ∀ a ∈ reps s.heap xs, ∀ b ∈ reps s.heap xs,
      ∀ e, e ≠ ipiVec → dispatchEventLocal (s.reps a) e = dispatchEventLocal (s.reps b) e := by
  obtain ⟨xs, r⟩ := replicated_of_reach reached
  refine ⟨⟨xs, r.registers, fun q mem => (r.listed q mem).table⟩, ?_⟩
  intro ys listed a ha b hb e notIpi
  obtain rfl := listed.linked.unique r.registers.linked
  rw [dispatchEventLocal_congr (r.listed a ha).table notIpi,
    dispatchEventLocal_congr (r.listed b hb).table notIpi]

/-- Memory that holds the value `fn` in all function numbers and 0 elsewhere. -/
def memory (fn : Nat) : Rep := ⟨0, 0, fun _ => ⟨0, fn⟩, 0, ⟨0, by decide⟩⟩

/-- A fresh root at address 1. -/
def sample : State :=
  ⟨1, CObjEBBRootMultiImp.init ⟨fun _ => ⟨0, 0⟩, fun _ => ⟨0, 0, 0⟩⟩ 1, fun _ => memory 0, 0,
    fun _ => .idle, []⟩

theorem init_sample : machine.init sample := ⟨⟨_, rfl⟩, rfl, fun _ => rfl, rfl⟩

/-- Core 1 starts in memory that holds the right function numbers, and an event is
registered afterwards. -/
theorem agree_of_inStep_sample :
    ∃ s, machine.ReachVia InStep s ∧ Registers s.heap 1 [21, 11] ∧ Agree s ∧
      dispatchEventLocal (s.reps 20) ⟨3, by decide⟩ = some (.handleEvent 7) := by
  have start : machine.ReachVia InStep sample := .init init_sample
  have created := start.next (.createRep 0 10 (memory 0)) trivial rfl
  have master := (created.next (.initMaster 0) trivial rfl).next (.addRepOn 0 11) trivial rfl
  have waiting := master.next (.createRep 1 20 (memory noFuncNum)) trivial rfl
  have copied := waiting.next (.copyHandlers 1) (by
    intro repRef mstr now e _
    cases show Phase.copying 20 10 = .copying repRef mstr from now
    rfl) rfl
  have added := copied.next (.addRepOn 1 21) trivial rfl
  have done := added.next (.registerHandler 0 3 ⟨7, noFuncNum⟩) (by
    intro core repRef now
    match core, now with
    | 0, now => cases now
    | 1, now => cases now
    | core + 2, now => cases now) rfl
  exact ⟨_, done, ⟨by decide, by decide⟩, (agree_of_inStep done).1, by decide⟩

theorem not_agree {s : State} (xs : List Nat) (r : Nat) (e : Fin maxEvents)
    (listed : Registers s.heap s.rootRef xs) (mem : r ∈ reps s.heap xs) (notIpi : e ≠ ipiVec)
    (differs : (s.reps r).handlerInfo e ≠ (s.reps s.theEventMgrPrimMaster).handlerInfo e) :
    ¬ Agree s := by
  intro ⟨ys, listed', tables⟩
  obtain rfl := listed.linked.unique listed'.linked
  exact differs (tables r mem e notIpi)

/-- Core 1 starts in zeroed memory after the registration of an event with method 1, and calls
method 0 of its handler. In the second run the memory holds the right function numbers, but the
event is registered between the copy and the publication, and core 1 has no handler. -/
theorem exists_reach_not_agree :
    (∃ s, machine.Reach s ∧ ¬ Agree s ∧
      dispatchEventLocal (s.reps 10) ⟨3, by decide⟩ = some (.method 7 1) ∧
      dispatchEventLocal (s.reps 20) ⟨3, by decide⟩ = some (.method 7 0)) ∧
    ∃ s, machine.Reach s ∧ ¬ Agree s ∧
      dispatchEventLocal (s.reps 10) ⟨3, by decide⟩ = some (.handleEvent 7) ∧
      dispatchEventLocal (s.reps 20) ⟨3, by decide⟩ = none := by
  have start : machine.Reach sample := .init init_sample
  have created := start.next (.createRep 0 10 (memory 0)) trivial rfl
  have master := (created.next (.initMaster 0) trivial rfl).next (.addRepOn 0 11) trivial rfl
  constructor
  · have registered := master.next (.registerHandler 0 3 ⟨7, 1⟩) trivial rfl
    have copied := (registered.next (.createRep 1 20 (memory 0)) trivial rfl).next
      (.copyHandlers 1) trivial rfl
    have added := copied.next (.addRepOn 1 21) trivial rfl
    refine ⟨_, added, ?_, by decide +kernel, by decide +kernel⟩
    exact not_agree [21, 11] 20 ⟨3, by decide⟩ ⟨by decide +kernel, by decide +kernel⟩
      (by decide +kernel) (by decide) (by decide +kernel)
  · have copied := (master.next (.createRep 1 20 (memory noFuncNum)) trivial rfl).next
      (.copyHandlers 1) trivial rfl
    have registered := copied.next (.registerHandler 0 3 ⟨7, noFuncNum⟩) trivial rfl
    have added := registered.next (.addRepOn 1 21) trivial rfl
    refine ⟨_, added, ?_, by decide +kernel, by decide +kernel⟩
    exact not_agree [21, 11] 20 ⟨3, by decide⟩ ⟨by decide +kernel, by decide +kernel⟩
      (by decide +kernel) (by decide) (by decide +kernel)

end EBBLib.EventMgrPrimImp
