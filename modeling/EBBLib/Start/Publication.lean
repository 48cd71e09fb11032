import EBBLib.Start.Init

/-!
# Publication of the managers' ids

A core that finds the sentinel has gone may use the id, because the winner has bound
it before it stores it. The losers in `EBBMgrPrimInit` look at the wrong variable, and
go on at once; everything is as it should be in the runs in which the id of the EBB
manager happens to be there when they look.
-/

namespace EBBLib.EBBInit

open EBBLib.Trans

/-- A loser in `EBBMgrPrimInit` leaves its wait loop only when the winner has stored
the id of the EBB manager. -/
def InTime (s : State) : Action → Prop
  | .load core => s.pc core = .run .mgr .wait → s.id .mgr ≠ sentinel
  | _ => True

instance (s : State) (a : Action) : Decidable (InTime s a) := by
  cases a <;> unfold InTime <;> infer_instance

section

variable (P : Program) (s : State)

/-- The id of a manager is allocated and bound to the root, and one core did all this. -/
structure Ready (m : Manager) (k : Slot) : Prop where
  id : s.id m = P.id k
  marked : Marked P.toImage s.mem k
  bound : Bound P.toImage s.mem k P.missFunc (s.rootRef m)
  once : ∃ c, s.rootBy m = [c] ∧ s.idBy m = [c]

/-- What boot-time publication comes to in one state. -/
structure Safe : Prop where
  once : ∀ m, (s.rootBy m).length ≤ 1 ∧ (s.idBy m).length ≤ 1
  returned : ∀ c m, (s.pc c).Returned m → ∃ k, Ready P s m k ∧ s.id m ≠ 0 ∧ s.id m ≠ sentinel
  called : ∀ v ∈ s.called, v ≠ 0 ∧ v ≠ sentinel ∧ ∃ m k, Ready P s m k ∧ v = P.id k
  bindings : ∀ c m id, s.pc c = .run m (.bind id) → id ≠ 0 ∧ id ≠ sentinel
  alive : ∀ c m, s.pc c ≠ .crashed m

end

/-! ### The invariant -/

/-- The winner is between its compare-and-swap and the publication. -/
def Phase.Creating : Phase → Prop
  | .create | .alloc | .bind _ | .publish _ => True
  | _ => False

/-- The ids that a core can have allocated before it gets somewhere. -/
def Pc.used : Pc → Nat
  | .run m .enter | .run m .create | .run m .alloc | .run m .wait => m.stage
  | .run m _ => m.stage + 1
  | .done | .crashed _ => 3

section

variable (P : Program) (s : State)

/-- The core `c` has won, and has created what the lists say. -/
structure Winner (c : Nat) (m : Manager) (roots ids : List Nat) : Prop where
  winner : s.winner m = some c
  id : s.id m = sentinel
  rootBy : s.rootBy m = roots
  idBy : s.idBy m = ids

def PhaseOk (c : Nat) (m : Manager) : Phase → Prop
  | .enter => True
  | .create => Winner s c m [] []
  | .alloc => Winner s c m [c] []
  | .bind id => Winner s c m [c] [c] ∧ ∃ k, id = P.id k ∧ Marked P.toImage s.mem k
  | .publish id => Winner s c m [c] [c] ∧ ∃ k, id = P.id k ∧ Marked P.toImage s.mem k ∧
      Bound P.toImage s.mem k P.missFunc (s.rootRef m)
  | .wait => s.id m ≠ 0
  | .install | .createRep | .addRep _ => ∃ k, Ready P s m k

def PcOk (c : Nat) : Pc → Prop
  | .run m p => (∀ m', m'.stage < m.stage → ∃ k, Ready P s m' k) ∧ PhaseOk P s c m p
  | .done => ∀ m, ∃ k, Ready P s m k
  | .crashed _ => False

/-- The entry `k` was allocated for the manager. -/
def Owns (m : Manager) (k : Slot) : Prop :=
  s.id m = P.id k ∨
    ∃ c, s.pc c = .run m (.bind (P.id k)) ∨ s.pc c = .run m (.publish (P.id k))

/-- How far the creation of a manager is, by its global id. -/
def IdOk (m : Manager) : Prop :=
  (s.id m = 0 ∧ s.winner m = none ∧ s.rootBy m = [] ∧ s.idBy m = []) ∨
    s.id m = sentinel ∨ ∃ k, Ready P s m k

structure Booting : Prop where
  ids : ∀ m, IdOk P s m
  once : ∀ m, (s.rootBy m).length ≤ 1 ∧ (s.idBy m).length ≤ 1
  cores : ∀ c, PcOk P s c (s.pc c)
  owned : ∀ m m' k, Owns P s m k → Owns P s m' k → m = m'
  free : ∀ k, (s.pc (home k)).used ≤ place k → ¬ Marked P.toImage s.mem k
  called : ∀ v ∈ s.called, ∃ m k, Ready P s m k ∧ v = P.id k

end

section

variable {P : Program} {s t : State} {core c : Nat} {m m' : Manager} {k : Slot}

theorem id_ne_sentinel (P : Program) (k : Slot) : P.id k ≠ sentinel := by
  have fits := P.fits
  have bound := k.isLt
  simp only [maxPics, numTrans, tblSize, transSize] at fits bound
  simp only [TransMem.id, TransMem.idbase, tblSize, transSize, sentinel]
  omega

theorem Ready.ne_zero (r : Ready P s m k) : s.id m ≠ 0 := r.id ▸ P.id_ne_zero k

theorem Ready.ne_sentinel (r : Ready P s m k) : s.id m ≠ sentinel := r.id ▸ id_ne_sentinel P k

theorem Winner.not_ready {roots ids : List Nat} (w : Winner s c m roots ids) : ¬ Ready P s m k :=
  fun r => r.ne_sentinel w.id

/-- A core that creates a manager has won it. -/
theorem PhaseOk.winner {p : Phase} (ok : PhaseOk P s c m p) (creating : p.Creating) :
    s.winner m = some c ∧ s.id m = sentinel := by
  cases p with
  | create => exact ⟨Winner.winner ok, Winner.id ok⟩
  | alloc => exact ⟨Winner.winner ok, Winner.id ok⟩
  | bind id => exact ⟨ok.1.winner, ok.1.id⟩
  | publish id => exact ⟨ok.1.winner, ok.1.id⟩
  | _ => exact creating.elim

/-- An allocated entry is marked. -/
theorem Booting.marked (b : Booting P s) (owns : Owns P s m k) : Marked P.toImage s.mem k := by
  obtain isId | ⟨c, binding | publishing⟩ := owns
  · obtain ⟨unset, _⟩ | taken | ⟨l, ready⟩ := b.ids m
    · exact absurd (isId.symm.trans unset) (P.id_ne_zero k)
    · exact absurd (isId.symm.trans taken) (id_ne_sentinel P k)
    · obtain rfl := P.id_inj (isId.symm.trans ready.id)
      exact ready.marked
  · have ok := b.cores c
    rw [binding] at ok
    obtain ⟨_, _, l, same, marked⟩ := ok
    obtain rfl := P.id_inj same
    exact marked
  · have ok := b.cores c
    rw [publishing] at ok
    obtain ⟨_, _, l, same, marked, _⟩ := ok
    obtain rfl := P.id_inj same
    exact marked

/-- Who owns an entry after a step of `core` to `p`. -/
theorem owns_cases {p : Pc} (pc : t.pc = Function.update s.pc core p) (now : Owns P t m k) :
    t.id m = P.id k ∨ (p = .run m (.bind (P.id k)) ∨ p = .run m (.publish (P.id k))) ∨
      Owns P s m k := by
  obtain isId | ⟨c, holds⟩ := now
  · exact .inl isId
  · by_cases mine : c = core
    · rw [pc, mine, Function.update_self] at holds
      exact .inr (.inl holds)
    · rw [pc, Function.update_of_ne mine] at holds
      exact .inr (.inr (.inr ⟨c, holds⟩))

/-- What a step of `core` to `p` may do: the data of at most one manager `ch` change, and
bindings of ids that belong to the other managers stay. -/
structure Moves (P : Program) (core : Nat) (ch : Option Manager) (p : Pc) (s t : State) :
    Prop where
  pc : t.pc = Function.update s.pc core p
  same : ∀ m, ch ≠ some m → t.id m = s.id m ∧ t.winner m = s.winner m ∧
    t.rootBy m = s.rootBy m ∧ t.idBy m = s.idBy m ∧ t.rootRef m = s.rootRef m
  ready : ∀ m k, ch = some m → Ready P s m k → Ready P t m k
  nonzero : ∀ m, ch = some m → s.id m ≠ 0 → t.id m ≠ 0
  marked : ∀ k, Marked P.toImage s.mem k → Marked P.toImage t.mem k
  bound : ∀ m k r, ch ≠ some m → Owns P s m k → Bound P.toImage s.mem k P.missFunc r →
    Bound P.toImage t.mem k P.missFunc r
  used : (s.pc core).used ≤ p.used
  fresh : ∀ k, Marked P.toImage t.mem k → Marked P.toImage s.mem k ∨
    home k = core ∧ place k < p.used
  owns : ∀ m k, Owns P t m k → Owns P s m k ∨ ch = some m ∧ ¬ Marked P.toImage s.mem k
  called : ∀ v ∈ t.called, v ∈ s.called ∨ ∃ m k, Ready P s m k ∧ v = P.id k

namespace Moves

variable {ch : Option Manager} {p : Pc}

theorem keepReady (mv : Moves P core ch p s t) (r : Ready P s m k) : Ready P t m k := by
  by_cases changed : ch = some m
  · exact mv.ready m k changed r
  · obtain ⟨id, _, rootBy, idBy, rootRef⟩ := mv.same m changed
    refine ⟨id.trans r.id, mv.marked k r.marked, ?_, ?_⟩
    · rw [rootRef]
      exact mv.bound m k _ changed (.inl r.id) r.bound
    · rw [rootBy, idBy]
      exact r.once

theorem keepWinner (mv : Moves P core ch p s t) (changed : ch ≠ some m) {roots ids : List Nat}
    (w : Winner s c m roots ids) : Winner t c m roots ids := by
  obtain ⟨id, winner, rootBy, idBy, _⟩ := mv.same m changed
  exact ⟨winner.trans w.winner, id.trans w.id, rootBy.trans w.rootBy, idBy.trans w.idBy⟩

/-- Another core's place stays as described when its manager is not the one that changes. -/
theorem keepPhase (mv : Moves P core ch p s t) {q : Phase} (here : s.pc c = .run m q)
    (ok : PhaseOk P s c m q) (apart : q.Creating → ch ≠ some m) : PhaseOk P t c m q := by
  cases q with
  | enter => trivial
  | create => exact mv.keepWinner (apart trivial) ok
  | alloc => exact mv.keepWinner (apart trivial) ok
  | bind id =>
      obtain ⟨w, k, isId, marked⟩ := ok
      exact ⟨mv.keepWinner (apart trivial) w, k, isId, mv.marked k marked⟩
  | publish id =>
      obtain ⟨w, k, rfl, marked, bound⟩ := ok
      refine ⟨mv.keepWinner (apart trivial) w, k, rfl, mv.marked k marked, ?_⟩
      rw [(mv.same m (apart trivial)).2.2.2.2]
      exact mv.bound m k _ (apart trivial) (.inr ⟨c, .inr here⟩) bound
  | wait =>
      show t.id m ≠ 0
      by_cases changed : ch = some m
      · exact mv.nonzero m changed ok
      · rw [(mv.same m changed).1]
        exact ok
  | install =>
      obtain ⟨k, r⟩ := ok
      exact ⟨k, mv.keepReady r⟩
  | createRep =>
      obtain ⟨k, r⟩ := ok
      exact ⟨k, mv.keepReady r⟩
  | addRep rep =>
      obtain ⟨k, r⟩ := ok
      exact ⟨k, mv.keepReady r⟩

theorem keepPc (mv : Moves P core ch p s t) {q : Pc} (here : s.pc c = q) (ok : PcOk P s c q)
    (apart : ∀ m q', q = .run m q' → q'.Creating → ch ≠ some m) : PcOk P t c q := by
  cases q with
  | run m q =>
      refine ⟨fun m' earlier => ?_, mv.keepPhase here ok.2 (apart m q rfl)⟩
      obtain ⟨k, r⟩ := ok.1 m' earlier
      exact ⟨k, mv.keepReady r⟩
  | done =>
      intro m
      obtain ⟨k, r⟩ := ok m
      exact ⟨k, mv.keepReady r⟩
  | crashed m => exact ok

/-- A step that changes no data of a manager and no mark or binding. -/
theorem quiet (pc : t.pc = Function.update s.pc core p)
    (same : t.id = s.id ∧ t.winner = s.winner ∧ t.rootBy = s.rootBy ∧ t.idBy = s.idBy ∧
      t.rootRef = s.rootRef)
    (marked : ∀ k, Marked P.toImage t.mem k ↔ Marked P.toImage s.mem k)
    (bound : ∀ k mf r, Bound P.toImage t.mem k mf r ↔ Bound P.toImage s.mem k mf r)
    (used : (s.pc core).used ≤ p.used)
    (owns : ∀ m id, p = .run m (.bind id) ∨ p = .run m (.publish id) → s.pc core = p)
    (called : ∀ v ∈ t.called, v ∈ s.called ∨ ∃ m k, Ready P s m k ∧ v = P.id k) :
    Moves P core none p s t := by
  obtain ⟨id, winner, rootBy, idBy, rootRef⟩ := same
  refine ⟨pc, ?_, nofun, nofun, fun k => (marked k).mpr, fun m k r _ _ => (bound k _ r).mpr, used,
    fun k now => .inl ((marked k).mp now), ?_, called⟩
  · intro m _
    rw [id, winner, rootBy, idBy, rootRef]
    exact ⟨rfl, rfl, rfl, rfl, rfl⟩
  · intro m k now
    obtain isId | holds | old := owns_cases pc now
    · exact .inl (.inl (id ▸ isId))
    · have before := owns m _ holds
      exact .inl (.inr ⟨core, before ▸ holds⟩)
    · exact .inl old

/-- The invariant rule: the mover says where it is now and how its manager stands. -/
theorem booting (mv : Moves P core ch p s t) (b : Booting P s)
    (alone : ∀ c m q, c ≠ core → s.pc c = .run m q → q.Creating → ch ≠ some m)
    (own : PcOk P t core p) (idOk : ∀ m, ch = some m → IdOk P t m)
    (once : ∀ m, ch = some m → (t.rootBy m).length ≤ 1 ∧ (t.idBy m).length ≤ 1) :
    Booting P t := by
  refine ⟨?_, ?_, ?_, ?_, ?_, ?_⟩
  · intro m
    by_cases changed : ch = some m
    · exact idOk m changed
    · obtain ⟨id, winner, rootBy, idBy, _⟩ := mv.same m changed
      obtain unset | taken | ⟨k, r⟩ := b.ids m
      · refine .inl ?_
        rw [id, winner, rootBy, idBy]
        exact unset
      · exact .inr (.inl (id.trans taken))
      · exact .inr (.inr ⟨k, mv.keepReady r⟩)
  · intro m
    by_cases changed : ch = some m
    · exact once m changed
    · obtain ⟨_, _, rootBy, idBy, _⟩ := mv.same m changed
      rw [rootBy, idBy]
      exact b.once m
  · intro c
    rw [mv.pc]
    by_cases mine : c = core
    · rw [mine, Function.update_self]
      exact own
    · rw [Function.update_of_ne mine]
      exact mv.keepPc rfl (b.cores c) fun m q here => alone c m q mine here
  · intro m m' k owns owns'
    obtain old | ⟨changed, new⟩ := mv.owns m k owns
    · obtain old' | ⟨_, new⟩ := mv.owns m' k owns'
      · exact b.owned m m' k old old'
      · exact absurd (b.marked old) new
    · obtain old' | ⟨changed', _⟩ := mv.owns m' k owns'
      · exact absurd (b.marked old') new
      · exact Option.some.inj (changed.symm.trans changed')
  · intro k behind marked
    rw [mv.pc] at behind
    obtain old | ⟨mine, before⟩ := mv.fresh k marked
    · refine b.free k ?_ old
      by_cases mine : home k = core
      · rw [mine, Function.update_self] at behind
        rw [mine]
        exact mv.used.trans behind
      · rwa [Function.update_of_ne mine] at behind
    · rw [mine, Function.update_self] at behind
      omega
  · intro v mem
    obtain old | ⟨m, k, r, isId⟩ := mv.called v mem
    · obtain ⟨m, k, r, isId⟩ := b.called v old
      exact ⟨m, k, mv.keepReady r, isId⟩
    · exact ⟨m, k, mv.keepReady r, isId⟩

end Moves

theorem used_afterId (m : Manager) : m.stage + 1 ≤ (afterId m).used := by
  cases m <;> decide

theorem used_afterRep (m : Manager) : m.stage + 1 ≤ (afterRep m).used := by
  cases m <;> decide

theorem afterId_ok (earlier : ∀ m', m'.stage < m.stage → ∃ k, Ready P s m' k)
    (r : Ready P s m k) : PcOk P s c (afterId m) := by
  cases m with
  | mem => exact ⟨earlier, k, r⟩
  | mgr =>
      refine ⟨fun m' before => ?_, trivial⟩
      cases m' with
      | mem => exact earlier .mem (by decide)
      | mgr => exact ⟨k, r⟩
      | event => exact absurd before (by decide)
  | event => exact ⟨earlier, k, r⟩

theorem afterRep_ok (earlier : ∀ m', m'.stage < m.stage → ∃ k, Ready P s m' k)
    (r : Ready P s m k) : PcOk P s c (afterRep m) := by
  cases m with
  | mem =>
      refine ⟨fun m' before => ?_, trivial⟩
      cases m' with
      | mem => exact ⟨k, r⟩
      | mgr => exact absurd before (by decide)
      | event => exact absurd before (by decide)
  | mgr => exact afterId_ok (m := .mgr) earlier r
  | event =>
      intro m'
      cases m' with
      | mem => exact earlier .mem (by decide)
      | mgr => exact earlier .mgr (by decide)
      | event => exact ⟨k, r⟩

namespace Booting

theorem start (init : (machine P).init s) : Booting P s := by
  obtain ⟨unset, clear, enter, uncalled, none, noRoot, noId⟩ := init
  have unmarked : ∀ k, ¬ Marked P.toImage s.mem k := by
    intro k marked
    exact absurd ((clear k).symm.trans marked) (by decide)
  refine ⟨fun m => .inl ⟨unset m, none m, noRoot m, noId m⟩, ?_, ?_, ?_, fun k _ => unmarked k, ?_⟩
  · intro m
    simp [noRoot m, noId m]
  · intro c
    rw [enter c]
    exact ⟨fun m' earlier => absurd earlier (Nat.not_lt_zero _), trivial⟩
  · intro m m' k owns
    obtain isId | ⟨c, binding | publishing⟩ := owns
    · exact absurd (isId.symm.trans (unset m)) (P.id_ne_zero k)
    · cases (enter c).symm.trans binding
    · cases (enter c).symm.trans publishing
  · rw [uncalled]
    simp

/-- A call through a published id is logged, and goes on. -/
theorem call (b : Booting P s) (r : Ready P s m' k) {next : State → Option State}
    (ran : s.call core m m' next = some t) :
    Booting P { s with called := s.id m' :: s.called } ∧
      next { s with called := s.id m' :: s.called } = some t := by
  have safe : ¬ (s.id m' = 0 ∨ s.id m' = sentinel) := by
    rintro (zero | taken)
    · exact r.ne_zero zero
    · exact r.ne_sentinel taken
  rw [State.call, if_neg safe] at ran
  refine ⟨?_, ran⟩
  have mv : Moves P core none (s.pc core) s { s with called := s.id m' :: s.called } := by
    apply Moves.quiet
    · exact (Function.update_eq_self core s.pc).symm
    · exact ⟨rfl, rfl, rfl, rfl, rfl⟩
    · exact fun _ => Iff.rfl
    · exact fun _ _ _ => Iff.rfl
    · exact Nat.le_refl _
    · exact fun _ _ _ => rfl
    · intro v mem
      obtain rfl | old := List.mem_cons.mp mem
      · exact .inr ⟨m', k, r, r.id⟩
      · exact .inl old
  exact mv.booting b nofun (mv.keepPc rfl (b.cores core) nofun) nofun nofun

/-- Only one core creates a manager. -/
theorem alone (b : Booting P s) (won : s.winner m = some core) (c : Nat) (m' : Manager)
    (q : Phase) (other : c ≠ core) (here : s.pc c = .run m' q) (creating : q.Creating) :
    some m ≠ some m' := by
  rintro ⟨⟩
  have ok := b.cores c
  rw [here] at ok
  exact other (Option.some.inj ((ok.2.winner creating).1.symm.trans won))

theorem rootCreated (b : Booting P s) (here : s.pc core = .run m .create) (rootRef : Nat) :
    Booting P (s.rootCreated core m rootRef) := by
  have ok := b.cores core
  rw [here] at ok
  obtain ⟨earlier, w⟩ := ok
  have w : Winner s core m [] [] := w
  have mv : Moves P core (some m) (.run m .alloc) s (s.rootCreated core m rootRef) := by
    refine ⟨rfl, ?_, ?_, fun _ _ => id, fun _ => id, fun _ _ _ _ _ => id, ?_, fun _ => .inl, ?_,
      fun _ => .inl⟩
    · intro m' other
      have other : m' ≠ m := fun same => other (same ▸ rfl)
      simp [State.rootCreated, other]
    · rintro m' k ⟨⟩ r
      exact (w.not_ready r).elim
    · rw [here]
      exact Nat.le_refl _
    · intro m' k now
      obtain isId | (holds | holds) | old := owns_cases rfl now
      · exact .inl (.inl isId)
      · cases holds
      · cases holds
      · exact .inl old
  have w' : Winner (s.rootCreated core m rootRef) core m [core] [] := by
    refine ⟨w.winner, w.id, ?_, w.idBy⟩
    simp [State.rootCreated, w.rootBy]
  refine mv.booting b (b.alone w.winner) ⟨?_, w'⟩ ?_ ?_
  · intro m' before
    obtain ⟨k, r⟩ := earlier m' before
    exact ⟨k, mv.keepReady r⟩
  · rintro m' ⟨⟩
    exact .inr (.inl w'.id)
  · rintro m' ⟨⟩
    rw [w'.rootBy, w'.idBy]
    exact ⟨Nat.le_refl _, Nat.zero_le _⟩

theorem idAllocated (b : Booting P s) (here : s.pc core = .run m .alloc)
    (started : core < P.numlpics) : Booting P (s.idAllocated P core m) := by
  have ok := b.cores core
  rw [here] at ok
  obtain ⟨earlier, w⟩ := ok
  have w : Winner s core m [core] [] := w
  have room : m.stage < myNumGTrans := by cases m <;> decide
  have free : ∀ k, home k = core → m.stage ≤ place k → ¬ Marked P.toImage s.mem k := by
    intro k mine behind
    apply b.free k
    rw [mine, here]
    exact behind
  obtain ⟨k, hk, pk, unmarked, run⟩ :=
    transEBBIdAlloc_spec (Nat.lt_of_lt_of_le started P.supported) room free
  have made : s.idAllocated P core m =
      { s with mem := setWord s.mem (P.globalEntry k) 16 allocated
               idBy := Function.update s.idBy m (core :: s.idBy m)
               pc := Function.update s.pc core (.run m (.bind (P.id k))) } := by
    rw [State.idAllocated, run]
  have mv : Moves P core (some m) (.run m (.bind (P.id k))) s (s.idAllocated P core m) := by
    rw [made]
    refine ⟨rfl, ?_, ?_, fun _ _ => id, fun _ old => marked_setWord.mpr (.inr old),
      fun _ _ _ _ _ => bound_setWord.mpr, ?_, ?_, ?_, fun _ => .inl⟩
    · intro m' other
      have other : m' ≠ m := fun same => other (same ▸ rfl)
      simp [other]
    · rintro m' l ⟨⟩ r
      exact (w.not_ready r).elim
    · rw [here]
      exact Nat.le_succ _
    · intro l now
      obtain rfl | old := marked_setWord.mp now
      · exact .inr ⟨hk, Nat.lt_succ_of_le pk⟩
      · exact .inl old
    · intro m' l now
      obtain isId | (holds | holds) | old := owns_cases rfl now
      · exact .inl (.inl isId)
      · obtain ⟨rfl, same⟩ : m = m' ∧ P.id k = P.id l := by simpa using holds
        obtain rfl := P.id_inj same
        exact .inr ⟨rfl, unmarked⟩
      · cases holds
      · exact .inl old
  have w' : Winner (s.idAllocated P core m) core m [core] [core] := by
    rw [made]
    refine ⟨w.winner, w.id, w.rootBy, ?_⟩
    simp [w.idBy]
  have marked : Marked P.toImage (s.idAllocated P core m).mem k := by
    rw [made]
    exact marked_setWord.mpr (.inl rfl)
  refine mv.booting b (b.alone w.winner) ⟨?_, w', k, rfl, marked⟩ ?_ ?_
  · intro m' before
    obtain ⟨l, r⟩ := earlier m' before
    exact ⟨l, mv.keepReady r⟩
  · rintro m' ⟨⟩
    exact .inr (.inl w'.id)
  · rintro m' ⟨⟩
    rw [w'.rootBy, w'.idBy]
    exact ⟨Nat.le_refl _, Nat.le_refl _⟩

theorem idBound (b : Booting P s) {id : Nat} (here : s.pc core = .run m (.bind id))
    (started : core < P.numlpics) (ran : s.idBound P core m id = some t) : Booting P t := by
  have ok := b.cores core
  rw [here] at ok
  obtain ⟨earlier, w, k, rfl, marked⟩ := ok
  obtain ⟨mem, run, bound, marks, others⟩ := transEBBIdBind_bound (I := P.toImage) (k := k)
    P.supported started P.missFunc (s.rootRef m) s.mem
  rw [State.idBound, run, Option.map_some, Option.some.injEq] at ran
  have owns : Owns P s m k := .inr ⟨core, .inl here⟩
  have mv : Moves P core (some m) (.run m (.publish (P.id k))) s t := by
    rw [← ran]
    refine ⟨rfl, fun _ _ => ⟨rfl, rfl, rfl, rfl, rfl⟩, ?_, fun _ _ => id,
      fun l old => (marks l).mpr old, ?_, ?_, fun l now => .inl ((marks l).mp now), ?_,
      fun _ => .inl⟩
    · rintro m' l ⟨⟩ r
      exact (w.not_ready r).elim
    · intro m' l r other owns' old
      refine (others l _ _ fun same => other ?_).mpr old
      subst same
      rw [b.owned m m' l owns owns']
    · rw [here]
      exact Nat.le_refl _
    · intro m' l now
      obtain isId | (holds | holds) | old := owns_cases rfl now
      · exact .inl (.inl isId)
      · cases holds
      · obtain ⟨rfl, same⟩ : m = m' ∧ P.id k = P.id l := by simpa using holds
        obtain rfl := P.id_inj same
        exact .inl owns
      · exact .inl old
  have w' : Winner t core m [core] [core] := by
    rw [← ran]
    exact ⟨w.winner, w.id, w.rootBy, w.idBy⟩
  have bound' : Bound P.toImage t.mem k P.missFunc (t.rootRef m) := by
    rw [← ran]
    exact bound
  refine mv.booting b (b.alone w.winner) ⟨?_, w', k, rfl, mv.marked k marked, bound'⟩ ?_ ?_
  · intro m' before
    obtain ⟨l, r⟩ := earlier m' before
    exact ⟨l, mv.keepReady r⟩
  · rintro m' ⟨⟩
    exact .inr (.inl w'.id)
  · rintro m' ⟨⟩
    rw [w'.rootBy, w'.idBy]
    exact ⟨Nat.le_refl _, Nat.le_refl _⟩

theorem publish (b : Booting P s) {id : Nat} (here : s.pc core = .run m (.publish id)) :
    Booting P { s with id := Function.update s.id m id
                       pc := Function.update s.pc core (afterId m) } := by
  have ok := b.cores core
  rw [here] at ok
  obtain ⟨earlier, w, k, rfl, marked, bound⟩ := ok
  have owns : Owns P s m k := .inr ⟨core, .inr here⟩
  have ready : Ready P { s with id := Function.update s.id m (P.id k)
                                pc := Function.update s.pc core (afterId m) } m k :=
    ⟨Function.update_self .., marked, bound, core, w.rootBy, w.idBy⟩
  have mv : Moves P core (some m) (afterId m) s
      { s with id := Function.update s.id m (P.id k)
               pc := Function.update s.pc core (afterId m) } := by
    refine ⟨rfl, ?_, ?_, ?_, fun _ old => old, fun _ _ _ _ _ old => old, ?_, fun _ => .inl, ?_,
      fun _ => .inl⟩
    · intro m' other
      have other : m' ≠ m := fun same => other (same ▸ rfl)
      simp [other]
    · rintro m' l ⟨⟩ r
      exact (w.not_ready r).elim
    · rintro m' ⟨⟩ _
      exact ready.ne_zero
    · rw [here]
      exact used_afterId m
    · intro m' l now
      obtain isId | holds | old := owns_cases rfl now
      · refine .inl ?_
        by_cases mine : m' = m
        · subst mine
          obtain rfl := P.id_inj (ready.id.symm.trans isId)
          exact owns
        · exact .inl (by simpa [mine] using isId)
      · cases m <;> simp [afterId] at holds
      · exact .inl old
  refine mv.booting b (b.alone w.winner) (afterId_ok ?_ ready) ?_ ?_
  · intro m' before
    obtain ⟨l, r⟩ := earlier m' before
    exact ⟨l, mv.keepReady r⟩
  · rintro m' ⟨⟩
    exact .inr (.inr ⟨k, ready⟩)
  · rintro m' ⟨⟩
    exact b.once m

theorem compareAndSwap (b : Booting P s) (here : s.pc core = .run m .enter) (unset : s.id m = 0) :
    Booting P { s with id := Function.update s.id m sentinel
                       winner := Function.update s.winner m (some core)
                       pc := Function.update s.pc core (.run m .create) } := by
  have ok := b.cores core
  rw [here] at ok
  obtain ⟨_, _, noRoot, noId⟩ : s.id m = 0 ∧ s.winner m = none ∧ s.rootBy m = [] ∧
    s.idBy m = [] := by
    obtain none | taken | ⟨k, r⟩ := b.ids m
    · exact none
    · exact absurd (unset.symm.trans taken) (by decide)
    · exact absurd unset r.ne_zero
  have mv : Moves P core (some m) (.run m .create) s
      { s with id := Function.update s.id m sentinel
               winner := Function.update s.winner m (some core)
               pc := Function.update s.pc core (.run m .create) } := by
    refine ⟨rfl, ?_, ?_, ?_, fun _ old => old, fun _ _ _ _ _ old => old, ?_, fun _ => .inl, ?_,
      fun _ => .inl⟩
    · intro m' other
      have other : m' ≠ m := fun same => other (same ▸ rfl)
      simp [other]
    · rintro m' k ⟨⟩ r
      exact absurd unset r.ne_zero
    · rintro m' ⟨⟩ set
      exact absurd unset set
    · rw [here]
      exact Nat.le_refl _
    · intro m' k now
      refine .inl ?_
      obtain isId | (holds | holds) | old := owns_cases rfl now
      · by_cases mine : m' = m
        · subst mine
          have taken : sentinel = P.id k := by simpa using isId
          exact absurd taken.symm (id_ne_sentinel P k)
        · exact .inl (by simpa [mine] using isId)
      · cases holds
      · cases holds
      · exact old
  refine mv.booting b ?_ ⟨?_, ?_⟩ ?_ ?_
  · rintro c m' q _ at_ creating ⟨⟩
    have other := b.cores c
    rw [at_] at other
    exact absurd (unset.symm.trans (other.2.winner creating).2) (by decide)
  · intro m' before
    obtain ⟨k, r⟩ := ok.1 m' before
    exact ⟨k, mv.keepReady r⟩
  · exact ⟨Function.update_self .., Function.update_self .., noRoot, noId⟩
  · rintro m' ⟨⟩
    exact .inr (.inl (Function.update_self ..))
  · rintro m' ⟨⟩
    exact b.once m

/-- A step that only moves a core, or changes words that do not matter here. -/
theorem move (b : Booting P s) {p : Pc} (pc : t.pc = Function.update s.pc core p)
    (same : t.id = s.id ∧ t.winner = s.winner ∧ t.rootBy = s.rootBy ∧ t.idBy = s.idBy ∧
      t.rootRef = s.rootRef) (called : t.called = s.called)
    (marked : ∀ k, Marked P.toImage t.mem k ↔ Marked P.toImage s.mem k)
    (bound : ∀ k mf r, Bound P.toImage t.mem k mf r ↔ Bound P.toImage s.mem k mf r)
    (used : (s.pc core).used ≤ p.used)
    (idle : ∀ m id, p ≠ .run m (.bind id) ∧ p ≠ .run m (.publish id))
    (own : (∀ m k, Ready P s m k → Ready P t m k) → PcOk P t core p) : Booting P t := by
  have mv : Moves P core none p s t := by
    apply Moves.quiet pc same marked bound used
    · rintro m id (binding | publishing)
      · exact absurd binding (idle m id).1
      · exact absurd publishing (idle m id).2
    · intro v mem
      exact .inl (called ▸ mem)
  exact mv.booting b nofun (own fun _ _ => mv.keepReady) nofun nofun

/-- The managers before the current one are ready. -/
theorem earlier (b : Booting P s) {p : Phase} (here : s.pc core = .run m p)
    (before : m'.stage < m.stage) : ∃ k, Ready P s m' k := by
  have ok := b.cores core
  rw [here] at ok
  exact ok.1 m' before

theorem load (b : Booting P s) (inTime : InTime s (.load core))
    (moved : stepOf P s (.load core) = some t) : Booting P t := by
  simp only [stepOf] at moved
  split at moved
  · rename_i m here
    split at moved
    · obtain rfl := Option.some.inj moved
      exact b
    · rename_i gone
      obtain rfl := Option.some.inj moved
      have ok := b.cores core
      rw [here] at ok
      have nonzero : s.id m ≠ 0 := ok.2
      have free : s.id m ≠ sentinel := by
        cases m with
        | mem => exact gone
        | mgr => exact inTime here
        | event => exact gone
      obtain ⟨unset, _⟩ | taken | ⟨k, r⟩ := b.ids m
      · exact absurd unset nonzero
      · exact absurd taken free
      · refine b.move rfl ⟨rfl, rfl, rfl, rfl, rfl⟩ rfl (fun _ => Iff.rfl)
          (fun _ _ _ => Iff.rfl) ?_ ?_ ?_
        · rw [here]
          exact (Nat.le_succ _).trans (used_afterId m)
        · intro m' id
          cases m <;> exact ⟨nofun, nofun⟩
        · intro keep
          refine afterId_ok (fun m' before => ?_) (keep m k r)
          obtain ⟨l, r'⟩ := ok.1 m' before
          exact ⟨l, keep m' l r'⟩
  · cases moved

theorem installRep (b : Booting P s) {rep : Nat} (started : core < P.numlpics)
    (moved : stepOf P s (.installRep core rep) = some t) : Booting P t := by
  simp only [stepOf] at moved
  split at moved
  · rename_i here
    have ok := b.cores core
    rw [here] at ok
    obtain ⟨earlier, k, r⟩ := ok
    have supported := Nat.lt_of_lt_of_le started P.supported
    rw [r.id, P.id2lt_id supported k, Option.some.injEq] at moved
    obtain ⟨marked, bound⟩ := ebbCacheObj_bound (I := P.toImage) (k := k) supported s.mem rep
    rw [← moved]
    refine b.move rfl ⟨rfl, rfl, rfl, rfl, rfl⟩ rfl marked bound ?_ ?_ ?_
    · rw [here]
      exact Nat.le_refl _
    · exact fun _ _ => ⟨nofun, nofun⟩
    · intro keep
      exact ⟨fun m' before => absurd before (Nat.not_lt_zero _), k, keep .mem k r⟩
  · cases moved

theorem createRep (b : Booting P s) {rep : Nat}
    (moved : stepOf P s (.createRep core rep) = some t) : Booting P t := by
  simp only [stepOf] at moved
  split at moved
  · rename_i here
    obtain ⟨l, mem⟩ := b.earlier here (show Manager.mem.stage < Manager.event.stage by decide)
    obtain ⟨b, moved⟩ := b.call mem moved
    have ok := b.cores core
    rw [show ({ s with called := s.id .mem :: s.called } : State).pc core = _ from here] at ok
    obtain ⟨earlier, k, r⟩ := ok
    obtain rfl := Option.some.inj moved
    refine b.move rfl ⟨rfl, rfl, rfl, rfl, rfl⟩ rfl (fun _ => Iff.rfl)
      (fun _ _ _ => Iff.rfl) ?_ ?_ ?_
    · show (s.pc core).used ≤ _
      rw [here]
      exact Nat.le_refl _
    · exact fun _ _ => ⟨nofun, nofun⟩
    · intro keep
      refine ⟨fun m' before => ?_, k, keep .event k r⟩
      obtain ⟨l, r'⟩ := earlier m' before
      exact ⟨l, keep m' l r'⟩
  · cases moved

theorem addRepOn (b : Booting P s) {node : Nat}
    (moved : stepOf P s (.addRepOn core node) = some t) : Booting P t := by
  simp only [stepOf] at moved
  split at moved
  · rename_i m rep here
    have mem : ∃ l, Ready P s .mem l := by
      have ok := b.cores core
      rw [here] at ok
      cases m with
      | mem => exact ok.2
      | mgr => exact ok.1 .mem (by decide)
      | event => exact ok.1 .mem (by decide)
    obtain ⟨l, mem⟩ := mem
    obtain ⟨b, moved⟩ := b.call mem moved
    obtain ⟨heap, added, rfl⟩ := Option.map_eq_some_iff.mp moved
    have ok := b.cores core
    rw [show ({ s with called := s.id .mem :: s.called } : State).pc core = _ from here] at ok
    obtain ⟨earlier, k, r⟩ := ok
    refine b.move rfl ⟨rfl, rfl, rfl, rfl, rfl⟩ rfl (fun _ => Iff.rfl)
      (fun _ _ _ => Iff.rfl) ?_ ?_ ?_
    · show (s.pc core).used ≤ _
      rw [here]
      exact used_afterRep m
    · intro m' id
      cases m <;> exact ⟨nofun, nofun⟩
    · intro keep
      refine afterRep_ok (fun m' before => ?_) (keep m k r)
      obtain ⟨l, r'⟩ := earlier m' before
      exact ⟨l, keep m' l r'⟩
  · cases moved

theorem createRoot (b : Booting P s) {rootRef : Nat}
    (moved : stepOf P s (.createRoot core rootRef) = some t) : Booting P t := by
  simp only [stepOf] at moved
  split at moved
  · rename_i here
    obtain rfl := Option.some.inj moved
    exact b.rootCreated here _
  · rename_i m notMem here
    have later : Manager.mem.stage < m.stage := by
      cases m with
      | mem => exact absurd rfl notMem
      | mgr => decide
      | event => decide
    obtain ⟨l, mem⟩ := b.earlier here later
    obtain ⟨b, moved⟩ := b.call mem moved
    obtain rfl := Option.some.inj moved
    exact b.rootCreated here _
  · cases moved

theorem allocId (b : Booting P s) (started : core < P.numlpics)
    (moved : stepOf P s (.allocId core) = some t) : Booting P t := by
  simp only [stepOf] at moved
  split at moved
  · rename_i here
    obtain ⟨l, mgr⟩ := b.earlier here (show Manager.mgr.stage < Manager.event.stage by decide)
    obtain ⟨b, moved⟩ := b.call mgr moved
    obtain rfl := Option.some.inj moved
    exact b.idAllocated here started
  · rename_i here
    obtain rfl := Option.some.inj moved
    exact b.idAllocated here started
  · cases moved

theorem bindId (b : Booting P s) (started : core < P.numlpics)
    (moved : stepOf P s (.bindId core) = some t) : Booting P t := by
  simp only [stepOf] at moved
  split at moved
  · rename_i id here
    obtain ⟨l, mgr⟩ := b.earlier here (show Manager.mgr.stage < Manager.event.stage by decide)
    obtain ⟨b, moved⟩ := b.call mgr moved
    exact b.idBound here started moved
  · rename_i here
    exact b.idBound here started moved
  · cases moved

theorem step {a : Action} (b : Booting P s) (inTime : InTime s a)
    (moved : (machine P).step s a = some t) : Booting P t := by
  simp only [machine, Option.ite_none_right_eq_some] at moved
  obtain ⟨started, moved⟩ := moved
  cases a with
  | compareAndSwap core =>
      simp only [stepOf] at moved
      split at moved
      · rename_i m here
        split at moved
        · rename_i unset
          obtain rfl := Option.some.inj moved
          exact b.compareAndSwap here unset
        · rename_i set
          obtain rfl := Option.some.inj moved
          refine b.move rfl ⟨rfl, rfl, rfl, rfl, rfl⟩ rfl (fun _ => Iff.rfl)
            (fun _ _ _ => Iff.rfl) ?_ ?_ ?_
          · rw [here]
            exact Nat.le_refl _
          · exact fun _ _ => ⟨nofun, nofun⟩
          · intro keep
            refine ⟨fun m' before => ?_, set⟩
            obtain ⟨k, r⟩ := b.earlier here before
            exact ⟨k, keep m' k r⟩
      · cases moved
  | createRoot core rootRef => exact b.createRoot moved
  | allocId core => exact b.allocId started moved
  | bindId core => exact b.bindId started moved
  | publish core =>
      simp only [stepOf] at moved
      split at moved
      · rename_i m id here
        have ok := b.cores core
        rw [here] at ok
        rw [if_neg fun failed => failed.2 ok.2.1.id, Option.some.injEq] at moved
        rw [← moved]
        exact b.publish here
      · cases moved
  | load core => exact b.load inTime moved
  | installRep core rep => exact b.installRep started moved
  | createRep core rep => exact b.createRep moved
  | addRepOn core node => exact b.addRepOn moved

theorem safe (b : Booting P s) : Safe P s := by
  refine ⟨b.once, ?_, ?_, ?_, ?_⟩
  · intro c m returned
    have ok := b.cores c
    have ready : ∃ k, Ready P s m k := by
      cases here : s.pc c with
      | run m' p =>
          rw [here] at ok returned
          exact ok.1 m returned
      | done =>
          rw [here] at ok
          exact ok m
      | crashed m' =>
          rw [here] at ok
          exact ok.elim
    obtain ⟨k, r⟩ := ready
    exact ⟨k, r, r.ne_zero, r.ne_sentinel⟩
  · intro v mem
    obtain ⟨m, k, r, rfl⟩ := b.called v mem
    exact ⟨P.id_ne_zero k, id_ne_sentinel P k, m, k, r, rfl⟩
  · intro c m id here
    have ok := b.cores c
    rw [here] at ok
    obtain ⟨_, _, k, rfl, _⟩ := ok
    exact ⟨P.id_ne_zero k, id_ne_sentinel P k⟩
  · intro c m here
    have ok := b.cores c
    rw [here] at ok
    exact ok

end Booting

/-- In every run in which the losers in `EBBMgrPrimInit` look in time, each manager is
created by one core, and its id is bound whenever an init function has returned. -/
theorem safe_of_inTime {P : Program} {s : State} (reached : (machine P).ReachVia InTime s) :
    Safe P s :=
  (reached.invariant (I := Booting P) (fun _ init => Booting.start init)
    fun _ _ _ _ b inTime moved => b.step inTime moved).safe

end

/-- Two cores, and a program at a fixed address. -/
def sampleProgram : Program where
  toImage := sampleImage
  numlpics := 2
  started := by decide
  supported := by decide
  missFunc := 2 ^ 20
  theRoot := 2 ^ 21

/-- No core has started `EBB_init`. -/
def sample : State where
  id _ := 0
  rootRef _ := 0
  mem _ := 0
  heap := ⟨fun _ => ⟨0, 0⟩, fun _ => ⟨0, 0, 0⟩⟩
  pc _ := .run .mem .enter
  called := []
  winner _ := none
  rootBy _ := []
  idBy _ := []

theorem init_sample : (machine sampleProgram).init sample :=
  ⟨fun _ => rfl, fun _ => rfl, fun _ => rfl, rfl, fun _ => rfl, fun _ => rfl, fun _ => rfl⟩

/-- A winner's way through an init function. -/
def wins (core rootRef : Nat) : List Action :=
  [.compareAndSwap core, .createRoot core rootRef, .allocId core, .bindId core, .publish core]

/-- Core 1 loses everywhere and looks at the id of the EBB manager when it is there. -/
theorem safe_of_inTime_sample :
    ∃ s, (machine sampleProgram).ReachVia InTime s ∧ s.pc 0 = .done ∧ s.pc 1 = .done ∧
      Safe sampleProgram s := by
  let run : List Action := List.flatten [
    wins 0 0, [.installRep 0 100, .addRepOn 0 101],
    [.compareAndSwap 1, .load 1, .installRep 1 110, .addRepOn 1 111],
    wins 0 102, [.compareAndSwap 1, .load 1],
    wins 0 103, [.createRep 0 104, .addRepOn 0 105],
    [.compareAndSwap 1, .load 1, .createRep 1 114, .addRepOn 1 115]]
  have ends : (((machine sampleProgram).execVia InTime sample run).map fun s => (s.pc 0, s.pc 1)) =
      some (.done, .done) := by decide +kernel
  obtain ⟨s, ran, done⟩ := Option.map_eq_some_iff.mp ends
  have reached := Machine.reachVia_of_execVia init_sample ran
  exact ⟨s, reached, congrArg Prod.fst done, congrArg Prod.snd done, safe_of_inTime reached⟩

/-- Core 0 has won the EBB manager and not published its id. `EBBMgrPrimInit` returns on
core 1 all the same, which wins the event manager and calls through -1. -/
theorem exists_reach_not_safe :
    ∃ s t, (machine sampleProgram).Reach s ∧ (machine sampleProgram).Reach t ∧
      (s.pc 1).Returned .mgr ∧ s.id .mgr = sentinel ∧ ¬ Safe sampleProgram s ∧
      sentinel ∈ t.called ∧ t.pc 1 = .crashed .event ∧ ¬ Safe sampleProgram t := by
  let run : List Action := List.flatten [
    wins 0 0, [.installRep 0 100, .addRepOn 0 101, .compareAndSwap 0],
    [.compareAndSwap 1, .load 1, .installRep 1 110, .addRepOn 1 111, .compareAndSwap 1, .load 1]]
  have ends : (((machine sampleProgram).exec sample run).map fun s => (s.pc 1, s.id .mgr)) =
      some (.run .event .enter, sentinel) := by decide +kernel
  obtain ⟨s, ran, at_⟩ := Option.map_eq_some_iff.mp ends
  have reached := Machine.reachVia_of_execVia init_sample ran
  have here : s.pc 1 = .run .event .enter := congrArg Prod.fst at_
  have taken : s.id .mgr = sentinel := congrArg Prod.snd at_
  have returned : (s.pc 1).Returned .mgr := by
    rw [here]
    exact Nat.lt_succ_self 1
  let run' := run ++ [.compareAndSwap 1, .createRoot 1 112, .allocId 1]
  have ends' : (((machine sampleProgram).exec sample run').map fun t =>
      (t.called.head?, t.pc 1)) = some (some sentinel, .crashed .event) := by decide +kernel
  obtain ⟨t, ran', at'⟩ := Option.map_eq_some_iff.mp ends'
  have reached' := Machine.reachVia_of_execVia init_sample ran'
  have called : sentinel ∈ t.called := List.mem_of_mem_head? (congrArg Prod.fst at')
  refine ⟨s, t, reached, reached', returned, taken, ?_, called, congrArg Prod.snd at', ?_⟩
  · intro safe
    obtain ⟨k, _, _, free⟩ := safe.returned 1 .mgr returned
    exact free taken
  · intro safe
    exact (safe.called _ called).2.1 rfl

end EBBLib.EBBInit
