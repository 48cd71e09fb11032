import EBBLib.Trans.Recycle
import EBBLib.Trans.Unique

/-!
# Running out of ids

Clients allocate ids through `AllocId` of the object manager, or through
`EBBAllocPrimIdBoot` before there is one. Both store what `TransEBBIdAlloc` returns and
report a success, the null id of a full portion included. So their reports can be relied
on as long as no call is made on a core whose portion is full.
-/

namespace EBBLib.Trans.Exhaustion

/-- The functions that allocate an id. -/
inductive Entry where
  /-- `EBBAllocPrimId`, which calls `AllocId`. -/
  | allocId
  | ebbAllocPrimIdBoot
deriving DecidableEq, Repr

/-- What the function returns and stores in `*id` when `TransEBBIdAlloc` returns `id`. -/
def Entry.ret : Entry → Nat → EBBRC × Nat
  | allocId, id => (EBBRC.ok, id)
  | ebbAllocPrimIdBoot, id => (EBBRC.ok, id)

/-- A call that has returned. -/
structure Result where
  core : Nat
  entry : Entry
  rc : EBBRC
  id : Nat
deriving DecidableEq

/-- The tables, the function that the call on each core goes through, and the results. -/
structure State where
  trans : Unique.State
  entry : Nat → Entry
  results : List Result

inductive Action where
  | call (core : Nat) (entry : Entry)
  /-- A step inside a call of `TransEBBIdAlloc`, or one that does not concern it. -/
  | trans (a : Unique.Action)

namespace State

variable (s : State)

/-- The call on core `c` returns. -/
def result (c id : Nat) : Result :=
  let (rc, id) := (s.entry c).ret id
  ⟨c, s.entry c, rc, id⟩

/-- Calls of `TransEBBIdAlloc` that have returned go back to the caller. -/
def settle (trans : Unique.State) : State :=
  let new := trans.returned.take (trans.returned.length - s.trans.returned.length)
  { s with trans, results := new.map (fun (c, id) => s.result c id) ++ s.results }

def step (I : Image) : Action → Option State
  | .call c entry =>
      (s.trans.step I (.alloc c)).map fun trans =>
        { s with trans, entry := Function.update s.entry c entry }
  | .trans (.alloc _) => none
  | .trans a => (s.trans.step I a).map s.settle

end State

/-- Any memory, and no core has started. -/
def machine (I : Image) : Machine State Action where
  init s := (Unique.machine I).init s.trans ∧ s.results = []
  step s := s.step I

/-- What callers expect of the results. -/
structure Reports (I : Image) (s : State) : Prop where
  nonnull : ∀ r ∈ s.results, EBBRC.success r.rc → r.id ≠ 0
  distinct : ((s.results.filter fun r => EBBRC.success r.rc).map Result.id).Nodup
  /-- A call that finds its core's portion full fails. -/
  full : ∀ a t r, s.step I a = some t → t.results = r :: s.results →
    (∀ k, home k = r.core → Marked I s.trans.mem k) → EBBRC.success r.rc = false

/-- The portion of the core that makes the call is not full. -/
def Room (I : Image) (s : State) : Action → Prop
  | .call c _ => ∃ k, home k = c ∧ ¬ Marked I s.trans.mem k
  | .trans _ => True

/-- The core is in `TransEBBIdAlloc`. -/
def Allocating : Unique.Pc → Prop
  | .scan _ | .mark _ => True
  | _ => False

section

variable {I : Image} {s t : State} {u v : Unique.State} {c d : Nat}

/-- A step moves one core, and a call starts with its own action only. -/
theorem step_core {a : Unique.Action} (moved : u.step I a = some v) :
    ∃ d pc, v.pc = Function.update u.pc d pc ∧
      (v.returned = u.returned ∨ Allocating (u.pc d) ∧ pc = .idle ∧
        ∃ id, v.returned = (d, id) :: u.returned) ∧
      (Allocating pc → Allocating (u.pc d) ∨ a = .alloc d) := by
  cases a with
  | move c n =>
      simp only [Unique.State.step] at moved
      cases at_ : u.pc c with
      | scan i =>
          rw [at_] at moved
          cases moved
          split
          · split
            · exact ⟨c, _, rfl, .inl rfl, fun _ => .inl (at_ ▸ trivial)⟩
            · exact ⟨c, _, rfl, .inl rfl, fun _ => .inl (at_ ▸ trivial)⟩
          · exact ⟨c, _, rfl, .inr ⟨at_ ▸ trivial, rfl, 0, rfl⟩, False.elim⟩
      | mark i =>
          rw [at_] at moved
          cases moved
          exact ⟨c, _, rfl, .inr ⟨at_ ▸ trivial, rfl, _, rfl⟩, False.elim⟩
      | zero | table =>
          rw [at_] at moved
          cases moved
          split <;> exact ⟨c, _, rfl, .inl rfl, False.elim⟩
      | test =>
          rw [at_] at moved
          cases moved
          refine ⟨c, _, rfl, .inl rfl, ?_⟩
          split <;> exact False.elim
      | next =>
          rw [at_] at moved
          obtain ⟨_, moved⟩ := Option.ite_none_right_eq_some.mp moved
          cases moved
          refine ⟨c, _, rfl, .inl rfl, ?_⟩
          split <;> exact False.elim
      | down | idle | missFunc =>
          rw [at_] at moved
          cases moved
      | tableFt | bindMf | bindArg | reset | resetFt | missMf | missArg | cacheObj | loadBv
      | storeBv =>
          rw [at_] at moved
          cases moved
          exact ⟨c, _, rfl, .inl rfl, False.elim⟩
  | alloc c =>
      obtain ⟨_, moved⟩ := Option.ite_none_right_eq_some.mp moved
      cases moved
      exact ⟨c, _, rfl, .inl rfl, fun _ => .inr rfl⟩
  | start | bind | miss | cache =>
      obtain ⟨_, moved⟩ := Option.ite_none_right_eq_some.mp moved
      cases moved
      exact ⟨_, _, rfl, .inl rfl, False.elim⟩
  | answer c obj =>
      simp only [Unique.State.step] at moved
      split at moved
      · cases moved
        refine ⟨c, _, rfl, .inl rfl, ?_⟩
        cases obj <;> exact False.elim
      · cases moved

/-- A call that goes on has the entries of its portion as they were. -/
theorem allocating_step {a : Unique.Action} (moved : u.step I a = some v)
    (allocating : Allocating (v.pc c)) :
    a = .alloc c ∨ Allocating (u.pc c) ∧ ∀ id, (c, id) ∈ v.returned → (c, id) ∈ u.returned := by
  obtain ⟨d, pc, pcs, returned, starts⟩ := step_core moved
  rw [pcs, Function.update_apply] at allocating
  split at allocating
  · rename_i here
    subst here
    obtain before | call := starts allocating
    · obtain same | ⟨-, rfl, -⟩ := returned
      · exact .inr ⟨before, fun id member => same ▸ member⟩
      · exact allocating.elim
    · exact .inl call
  · rename_i other
    refine .inr ⟨allocating, fun id member => ?_⟩
    obtain same | ⟨-, -, id', new⟩ := returned
    · exact same ▸ member
    · rw [new] at member
      obtain here | old := List.mem_cons.mp member
      · exact absurd (Prod.mk.inj here).1 other
      · exact old

theorem settle_same (same : v.returned = s.trans.returned) : (s.settle v).results = s.results := by
  simp [State.settle, same]

theorem settle_new {id : Nat} (new : v.returned = (c, id) :: s.trans.returned) :
    (s.settle v).results = s.result c id :: s.results := by
  simp [State.settle, new]

/-- The steps, by what they do to the results. -/
theorem step_cases {a : Action} (moved : s.step I a = some t) :
    ∃ b, s.trans.step I b = some t.trans ∧
      ((∃ c entry, a = .call c entry ∧ b = .alloc c ∧ t.results = s.results) ∨
        (∀ c, b ≠ .alloc c) ∧ t = s.settle t.trans) := by
  cases a with
  | call c entry =>
      obtain ⟨v, inner, rfl⟩ := Option.map_eq_some_iff.mp moved
      exact ⟨.alloc c, inner, .inl ⟨c, entry, rfl, rfl, rfl⟩⟩
  | trans b =>
      cases b with
      | alloc => cases moved
      | move | start | bind | miss | answer | cache =>
          obtain ⟨v, inner, rfl⟩ := Option.map_eq_some_iff.mp moved
          refine ⟨_, inner, .inr ⟨fun c same => ?_, rfl⟩⟩
          cases same

/-- The tables move as they do without the results. -/
theorem reach_trans {ok : State → Action → Prop} (run : (machine I).ReachVia ok s) :
    (Unique.machine I).Reach s.trans := by
  induction run with
  | init start => exact .init start.1
  | step _ _ moved ih =>
      obtain ⟨b, inner, -⟩ := step_cases moved
      exact .step ih trivial inner

/-- The results are those of `TransEBBIdAlloc`, reported as successes. -/
structure Reported (s : State) : Prop where
  rc : ∀ r ∈ s.results, r.rc = EBBRC.ok
  ids : s.results.map (fun r => (r.core, r.id)) = s.trans.returned

theorem ret_eq (entry : Entry) (id : Nat) : entry.ret id = (EBBRC.ok, id) := by
  cases entry <;> rfl

theorem Reported.settle (reported : Reported s) {id : Nat}
    (new : v.returned = (c, id) :: s.trans.returned) : Reported (s.settle v) := by
  have result : s.result c id = ⟨c, s.entry c, EBBRC.ok, id⟩ := by rw [State.result, ret_eq]
  constructor
  · intro r member
    rw [settle_new new, result] at member
    obtain rfl | old := List.mem_cons.mp member
    · rfl
    · exact reported.rc r old
  · rw [settle_new new, result, List.map_cons, reported.ids]
    exact new.symm

theorem reported {ok : State → Action → Prop} (run : (machine I).ReachVia ok s) :
    Reported s := by
  apply run.invariant
  · rintro s ⟨⟨-, none⟩, empty⟩
    exact ⟨by simp [empty], by simp [empty, none]⟩
  · intro s a t run reported _ moved
    obtain ⟨b, inner, ⟨c, entry, -, rfl, same⟩ | ⟨-, settles⟩⟩ := step_cases moved
    · obtain ⟨-, goes⟩ := Option.ite_none_right_eq_some.mp inner
      have returned : t.trans.returned = s.trans.returned := by
        rw [← Option.some.inj goes]
        rfl
      exact ⟨same ▸ reported.rc, by rw [same, returned]; exact reported.ids⟩
    · rw [settles]
      obtain ⟨c, _, -, same | ⟨-, -, id, new⟩, -⟩ := step_core inner
      · exact ⟨settle_same same ▸ reported.rc, by
          rw [settle_same same, reported.ids]
          exact same.symm⟩
      · exact reported.settle new

/-- Calls that are under way have an entry left to find. -/
def Roomy (I : Image) (s : State) : Prop :=
  ∀ c, Allocating (s.trans.pc c) → ∃ k, home k = c ∧ ¬ Marked I s.trans.mem k

theorem allocating_accounts (inv : Unique.Inv I u) (allocating : Allocating (u.pc c)) :
    Unique.Accounts I u.mem u.returned c := by
  have portion := inv.portion c
  cases at_ : u.pc c with
  | scan | mark =>
      rw [at_] at portion
      exact portion.2.1
  | down | zero | table | tableFt | idle | bindMf | bindArg | test | reset | resetFt | next
  | missMf | missArg | missFunc | cacheObj | loadBv | storeBv =>
      rw [at_] at allocating
      exact allocating.elim

theorem Roomy.step {a : Action} (run : (machine I).ReachVia (Room I) s) (roomy : Roomy I s)
    (room : Room I s a) (moved : s.step I a = some t) : Roomy I t := by
  intro c allocating
  obtain ⟨b, inner, kind⟩ := step_cases moved
  have inv := Unique.inv_reach (reach_trans run)
  obtain rfl | ⟨before, kept⟩ := allocating_step inner allocating
  · obtain ⟨d, entry, rfl, same, -⟩ | ⟨other, -⟩ := kind
    · obtain rfl := Unique.Action.alloc.inj same
      obtain ⟨-, goes⟩ := Option.ite_none_right_eq_some.mp inner
      rw [← Option.some.inj goes]
      exact room
    · exact absurd rfl (other c)
  · obtain ⟨k, mine, unmarked⟩ := roomy c before
    have accounts := allocating_accounts (inv.step inner) allocating
    refine ⟨k, mine, fun marked => unmarked ?_⟩
    exact (allocating_accounts inv before k mine).mpr (kept _ ((accounts k mine).mp marked))

theorem roomy (run : (machine I).ReachVia (Room I) s) : Roomy I s := by
  apply run.invariant
  · rintro s ⟨⟨down, -⟩, -⟩ c allocating
    rw [down] at allocating
    exact allocating.elim
  · intro s a t run roomy room moved
    exact roomy.step run room moved

/-- A call that returns was under way on its core. -/
theorem returns_allocating {a : Action} {r : Result} (moved : s.step I a = some t)
    (returns : t.results = r :: s.results) :
    Allocating (s.trans.pc r.core) ∧ ∃ b, s.trans.step I b = some t.trans ∧
      t.trans.returned = (r.core, r.id) :: s.trans.returned := by
  obtain ⟨b, inner, ⟨c, entry, -, rfl, same⟩ | ⟨-, settles⟩⟩ := step_cases moved
  · rw [same] at returns
    exact absurd returns (List.cons_ne_self _ _).symm
  · rw [settles] at returns
    obtain ⟨d, _, -, same | ⟨before, -, id, new⟩, -⟩ := step_core inner
    · rw [settle_same same] at returns
      exact absurd returns (List.cons_ne_self _ _).symm
    · rw [settle_new new, State.result, ret_eq] at returns
      obtain ⟨rfl, -⟩ := List.cons.inj returns
      exact ⟨before, b, inner, new⟩

/-- No call returns null as long as calls are made on cores whose portion is not full. -/
theorem nonnull (run : (machine I).ReachVia (Room I) s) :
    ∀ p ∈ s.trans.returned, p.2 ≠ 0 := by
  apply run.invariant
  · rintro s ⟨⟨-, none⟩, -⟩
    simp [none]
  · intro s a t run old _ moved
    obtain ⟨b, inner, -⟩ := step_cases moved
    obtain ⟨c, _, -, same | ⟨allocating, -, id, new⟩, -⟩ := step_core inner
    · exact same ▸ old
    · rw [new]
      refine List.forall_mem_cons.mpr ⟨fun null => ?_, old⟩
      have inv := Unique.inv_reach (reach_trans run)
      obtain ⟨k, mine, unmarked⟩ := roomy run c allocating
      have all := (inv.null inner new).mp null
      exact unmarked ((allocating_accounts inv allocating k mine).mpr (all k mine))

/-! ### Calls until the portion is full -/

theorem step_trans {b : Unique.Action} (other : ∀ c, b ≠ .alloc c) :
    s.step I (.trans b) = (s.trans.step I b).map s.settle := by
  cases b with
  | alloc c => exact absurd rfl (other c)
  | move | start | bind | miss | answer | cache => rfl

/-- A run of the tables is one with results, if calls are allowed while there are no more
results than at its end. -/
theorem exists_reach (ok : State → Action → Prop) (run : (Unique.machine I).Reach u)
    (calls : ∀ (s : State) c entry, (Unique.machine I).Reach s.trans → s.trans.pc c = .idle →
      s.trans.returned.length ≤ u.returned.length → ok s (.call c entry))
    (others : ∀ s b, ok s (.trans b)) : ∃ s, (machine I).ReachVia ok s ∧ s.trans = u := by
  induction run with
  | @init u start => exact ⟨⟨u, fun _ => .allocId, []⟩, .init ⟨start, rfl⟩, rfl⟩
  | @step u v b before _ inner ih =>
      have grows : u.returned.length ≤ v.returned.length := by
        obtain ⟨d, _, -, same | ⟨-, -, id, new⟩, -⟩ := step_core inner
        · rw [same]
        · rw [new]
          exact Nat.le_succ _
      obtain ⟨s, run, rfl⟩ := ih fun s c entry reached idle few =>
        calls s c entry reached idle (few.trans grows)
      by_cases call : ∃ c, b = .alloc c
      · obtain ⟨c, rfl⟩ := call
        have idle := (Option.ite_none_right_eq_some.mp inner).1
        refine ⟨{ s with trans := v, entry := Function.update s.entry c .allocId }, ?_, rfl⟩
        exact .step (a := .call c .allocId) run (calls s c .allocId before idle grows)
          (Option.map_eq_some_iff.mpr ⟨v, inner, rfl⟩)
      · refine ⟨s.settle v, .step (a := .trans b) run (others s b) ?_, rfl⟩
        exact (step_trans fun c same => call ⟨c, same⟩).trans
          (Option.map_eq_some_iff.mpr ⟨v, inner, rfl⟩)

/-- There is an entry left on each core as long as few calls have returned. -/
theorem exists_room (hc : c < maxPics) (few : u.returned.length < myNumGTrans) :
    ∃ k, home k = c ∧ (c, I.id k) ∉ u.returned := by
  by_contra none
  push Not at none
  have mapsTo : Set.MapsTo (fun k => (c, I.id k)) (Recycle.portion c : Set Slot)
      (u.returned.toFinset : Set (Nat × Nat)) := by
    intro k member
    have mine : home k = c := by simpa [Recycle.portion] using member
    simpa using none k mine
  have injective : Set.InjOn (fun k => (c, I.id k)) (Recycle.portion c : Set Slot) :=
    fun k _ l _ same => I.id_inj (Prod.mk.inj same).2
  have fits := Finset.card_le_card_of_injOn _ mapsTo injective
  have total := List.toFinset_card_le u.returned
  rw [Recycle.card_portion hc] at fits
  omega

theorem room_of_few {entry : Entry} (run : (Unique.machine I).Reach s.trans)
    (idle : s.trans.pc c = .idle) (few : s.trans.returned.length < myNumGTrans) :
    Room I s (.call c entry) := by
  have portion := (Unique.inv_reach run).portion c
  rw [idle] at portion
  obtain ⟨hc, accounts⟩ := portion
  obtain ⟨k, mine, fresh⟩ := exists_room (I := I) hc few
  exact ⟨k, mine, fun marked => fresh ((accounts k mine).mp marked)⟩

/-- A call that is under way returns. -/
theorem reach_return (run : (Unique.machine I).Reach u) {i : Nat} (at_ : u.pc c = .scan i) :
    ∃ v id, (Unique.machine I).Reach v ∧ v.pc c = .idle ∧ v.returned = (c, id) :: u.returned := by
  induction left : myNumGTrans - i generalizing u i with
  | zero =>
      have ended : ¬ i < myNumGTrans := by omega
      have moved : u.move I c 0 (.scan i) = some (u.ret c 0) := by
        rw [Unique.State.move, if_neg ended]
      exact ⟨_, 0, Unique.reach_move run at_ moved, Function.update_self .., rfl⟩
  | succ left ih =>
      have inside : i < myNumGTrans := by omega
      have moves : u.move I c 0 (.scan i) = some
          (if u.mem (mygmem I c + transSize * i + 16) ≠ allocated then u.goto c (.mark i)
            else u.goto c (.scan (i + 1))) := by
        rw [Unique.State.move, if_pos inside]
      have next := Unique.reach_move run at_ moves
      split at next
      · exact ⟨_, _, Unique.reach_move (n := 0) next Unique.goto_pc rfl,
          Function.update_self .., rfl⟩
      · obtain ⟨v, id, result⟩ := ih next Unique.goto_pc (by omega)
        exact ⟨v, id, result⟩

theorem reach_call (run : (Unique.machine I).Reach u) (idle : u.pc c = .idle) :
    ∃ v id, (Unique.machine I).Reach v ∧ v.pc c = .idle ∧ v.returned = (c, id) :: u.returned := by
  have called : (Unique.machine I).Reach (u.goto c (.scan 0)) :=
    .step (a := .alloc c) run trivial (if_pos idle)
  obtain ⟨v, id, result⟩ := reach_return called Unique.goto_pc
  exact ⟨v, id, result⟩

/-- The entries of a portion whose ids have not been returned. -/
def unreturned (I : Image) (u : Unique.State) (c : Nat) : Finset Slot :=
  (Recycle.portion c).filter fun k => (c, I.id k) ∉ u.returned.toFinset

theorem mem_unreturned {k : Slot} :
    k ∈ unreturned I u c ↔ home k = c ∧ (c, I.id k) ∉ u.returned := by
  simp [unreturned, Recycle.portion]

/-- Calls on one core use up its portion, and one more call finds it full. -/
theorem reach_null (run : (Unique.machine I).Reach u) (idle : u.pc c = .idle) :
    ∃ v, (Unique.machine I).Reach v ∧ (c, 0) ∈ v.returned := by
  induction left : (unreturned I u c).card using Nat.strong_induction_on generalizing u with
  | h left ih =>
      obtain ⟨v, id, run', idle', returned⟩ := reach_call run idle
      have member : (c, id) ∈ v.returned := by
        rw [returned]
        exact List.mem_cons_self
      by_cases null : id = 0
      · exact ⟨v, run', null ▸ member⟩
      · have inv := Unique.inv_reach run'
        obtain ⟨k, mine, rfl⟩ := inv.entry c id member null
        have distinct := inv.distinct
        rw [returned, List.map_cons, List.filter_cons_of_pos (by simpa using null)] at distinct
        have fresh : (c, I.id k) ∉ u.returned := by
          intro old
          apply (List.nodup_cons.mp distinct).1
          exact List.mem_filter.mpr ⟨List.mem_map_of_mem old, by simpa using null⟩
        have fewer : unreturned I v c ⊂ unreturned I u c := by
          refine (Finset.ssubset_iff_of_subset fun l hl => ?_).mpr
            ⟨k, mem_unreturned.mpr ⟨mine, fresh⟩, fun there => (mem_unreturned.mp there).2 member⟩
          obtain ⟨home, none⟩ := mem_unreturned.mp hl
          refine mem_unreturned.mpr ⟨home, fun old => none ?_⟩
          rw [returned]
          exact List.mem_cons_of_mem _ old
        exact ih _ (left ▸ Finset.card_lt_card fewer) run' idle' rfl

end

/-- Results can be relied on in the runs whose calls are made on cores with an entry left. -/
theorem reports {I : Image} {s : State} (run : (machine I).ReachVia (Room I) s) :
    Reports I s := by
  have reported := reported run
  have inv := Unique.inv_reach (reach_trans run)
  have ids : s.results.map Result.id = s.trans.returned.map Prod.snd := by
    rw [← reported.ids, List.map_map]
    rfl
  constructor
  · intro r member _
    have returned : (r.core, r.id) ∈ s.trans.returned := by
      rw [← reported.ids]
      exact List.mem_map_of_mem member
    exact nonnull run _ returned
  · have all : (s.results.filter fun r => EBBRC.success r.rc) = s.results := by
      refine List.filter_eq_self.mpr fun r member => ?_
      rw [reported.rc r member]
      rfl
    have some : (s.trans.returned.map Prod.snd).filter (· ≠ 0) =
        s.trans.returned.map Prod.snd := by
      refine List.filter_eq_self.mpr fun id member => ?_
      obtain ⟨p, returned, rfl⟩ := List.mem_map.mp member
      exact decide_eq_true (nonnull run p returned)
    rw [all, ids, ← some]
    exact inv.distinct
  · intro a t r moved returns full
    obtain ⟨allocating, -⟩ := returns_allocating moved returns
    obtain ⟨k, mine, unmarked⟩ := roomy run _ allocating
    exact absurd (full k mine) unmarked

/-- The first core to start allocates two ids. -/
theorem reports_sample : ∃ s, (machine sampleImage).ReachVia (Room sampleImage) s ∧
    s.results.length = 2 ∧ Reports sampleImage s := by
  have start : (Unique.machine sampleImage).Reach ⟨sampleMem, fun _ => .down, []⟩ :=
    .init ⟨fun _ => rfl, rfl⟩
  obtain ⟨u, up, idle, none, -⟩ := Unique.reach_idle (c := 0) start (by decide) rfl
  obtain ⟨u', id, called, idle', returned⟩ := reach_call up idle
  obtain ⟨v, id', called', -, returned'⟩ := reach_call called idle'
  have two : v.returned.length = 2 := by
    rw [returned', returned, none]
    rfl
  obtain ⟨s, run, rfl⟩ := exists_reach (Room sampleImage) called'
    (fun s c entry reached idle few => room_of_few reached idle
      ((few.trans two.le).trans_lt (by decide))) fun _ _ => trivial
  refine ⟨s, run, ?_, reports run⟩
  rw [← two, ← (reported run).ids, List.length_map]

/-- A core goes on allocating until it gets the null id, with a success. -/
theorem exists_null_ok : ∃ s, (machine sampleImage).Reach s ∧
    (∃ r ∈ s.results, r.rc = EBBRC.ok ∧ r.id = 0) ∧ ¬ Reports sampleImage s := by
  have start : (Unique.machine sampleImage).Reach ⟨sampleMem, fun _ => .down, []⟩ :=
    .init ⟨fun _ => rfl, rfl⟩
  obtain ⟨u, up, idle, -⟩ := Unique.reach_idle (c := 0) start (by decide) rfl
  obtain ⟨v, called, null⟩ := reach_null up idle
  obtain ⟨s, run, rfl⟩ := exists_reach (fun _ _ => True) called
    (fun _ _ _ _ _ _ => trivial) fun _ _ => trivial
  have reported := reported run
  rw [← reported.ids] at null
  obtain ⟨r, member, same⟩ := List.mem_map.mp null
  have ok := reported.rc r member
  have id := (Prod.mk.inj same).2
  refine ⟨s, run, ⟨r, member, ok, id⟩, fun reports => ?_⟩
  exact reports.nonnull r member (by rw [ok]; rfl) id

end EBBLib.Trans.Exhaustion
