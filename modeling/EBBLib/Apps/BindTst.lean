import EBBLib.Apps.Barrier
import EBBLib.Trans.Rebind

/-!
# The test of `bindtst.c`

Core 0 binds the id of a service to one instance after the other, and after each bind all cores
call it and compare what the call returns. Binds and calls take no lock, and only the calls of
the barrier between them keep them apart. Here the cores of `Apps.Barrier` execute the steps of
`Trans.Rebind` between their calls of the barrier.
-/

namespace EBBLib.BindTst.Test

/-- What a core does with `ServiceInfo.theId` before its next call of the barrier. -/
inductive Part where
  | nothing
  | bind (j : Nat)
  | call (j : Nat)
deriving DecidableEq, Repr

/-- The body of `BindTst_start` after the core has returned from `barrier` `k` times. -/
def part (master : Bool) (k : Nat) : Part :=
  match k with
  | 2 => if master then .bind 0 else .nothing
  | 3 => .call 0
  | 4 => if master then .bind 1 else .nothing
  | 5 => .call 1
  | 6 => if master then .bind 2 else .nothing
  | 7 => .call 2
  | _ => .nothing

/-- `EBBRC_NULL`. -/
def ebbrcNull : Int := -6

/-- What `BindTst_start` compares the results of its calls with. -/
def expected (j : Nat) : Int :=
  match j with
  | 0 => ebbrcNull
  | 1 => 100
  | _ => 200

/-- `nullmissmf`, which chooses no representative. -/
def nullmissmf : Int := ebbrcNull

/-- `SrvImp0_op`. -/
def srvImp0_op : Int := 100

/-- `SrvImp1_op`. -/
def srvImp1_op : Int := 200

/-- The addresses of the two miss functions, and of the roots and the representatives that
`SrvImp0Create` and `SrvImp1Create` make. -/
structure Instances where
  nullmissmf : Nat
  cobjEBBMissFunc : Nat
  root0 : Nat
  root1 : Nat
  rep0 : Nat
  rep1 : Nat
  missFuncs : cobjEBBMissFunc ≠ nullmissmf
  roots : root1 ≠ root0
  reps : rep1 ≠ rep0

namespace Instances

variable (I : Instances)

/-- The miss functions of `L0Info.NULLInst`, `s0Inst` and `s1Inst`. -/
def mf (j : Nat) : Nat :=
  match j with
  | 0 => I.nullmissmf
  | _ => I.cobjEBBMissFunc

/-- Their arguments. -/
def arg (j : Nat) : Nat :=
  match j with
  | 0 => 0
  | 1 => I.root0
  | _ => I.root1

/-- `theRep` of a root. -/
def theRep (root : Nat) : Nat := if root = I.root0 then I.rep0 else I.rep1

/-- What a miss function chooses, by `CObjEBBRootSharedImp_handleMiss` on every core the same. -/
def chooses (mf arg _core : Nat) : Nat := if mf = I.nullmissmf then 0 else I.theRep arg

/-- The call of `op` in the function table of a representative. -/
def op (rep : Nat) : Int := if rep = I.rep0 then srvImp0_op else srvImp1_op

/-- A call returns the error code of the miss function, or what the method returns. -/
def rc (r : Trans.Rebind.Obtained) : Int :=
  if r.mf.word = I.nullmissmf then Test.nullmissmf else I.op r.rep

end Instances

/-- The cores at the barrier, the translation of the id, how many of its parts each core has
begun, and its variable `passed`. -/
structure State (n : Nat) where
  cores : BindTst.State n
  id : Trans.Rebind.State
  begun : Fin n → Nat
  passed : Fin n → Bool

inductive Action (n : Nat) where
  | barrier (a : BindTst.Action n)
  /-- A part without access to the id. -/
  | skip (c : Fin n)
  /-- The first store of a bind. -/
  | bind (c : Fin n)
  | call (c : Fin n)
  /-- The other steps of a bind and of a miss. -/
  | goOn (a : Trans.Rebind.Action)
  /-- The return from a miss. -/
  | finish (c : Fin n)
deriving DecidableEq, Repr

section

variable {n : Nat} (I : Instances) (s : State n) (c : Fin n)

/-- How often a core has returned from the barrier. -/
def State.phase : Nat := (s.cores.core c).left

def State.part : Part := Test.part (c.val = 0) (s.phase c)

/-- A core is outside of the barrier, at the beginning of its part. -/
def State.Ready : Prop := (s.cores.core c).pc = .outside ∧ s.begun c = s.phase c

/-- A core is at the end of its part. -/
def State.Finished : Prop :=
  s.begun c = s.phase c + 1 ∧ s.id.miss c = .idle ∧ (c.val = 0 → s.id.binder = .idle)

instance : Decidable (s.Ready c) := inferInstanceAs (Decidable (_ ∧ _))

instance : Decidable (s.Finished c) := inferInstanceAs (Decidable (_ ∧ _ ∧ _))

def State.begin : State n := { s with begun := Function.update s.begun c (s.begun c + 1) }

/-- `if (!(passed == 1 && rc == …)) passed = 0`. -/
def State.check (j : Nat) (r : Trans.Rebind.Obtained) : State n :=
  let passes : Bool := I.rc r = expected j
  { s with passed := Function.update s.passed c (s.passed c && passes) }

/-- The steps that `bind`, `call` and `finish` stand for are not repeated in `goOn`. Only the
root's miss function calls `EBBCacheObj`. -/
def State.goesOn (s : State n) : Trans.Rebind.Action → Bool
  | .storeMf _ _ _ | .call _ | .finish _ => false
  | .cacheObj c =>
      match s.id.miss c with
      | .returned r => r.mf.word ≠ I.nullmissmf
      | _ => false
  | .storeArg | .reset | .loadMf _ | .loadArg _ | .run _ => true

/-- The barrier is called at the end of a part, eight times. -/
def State.calls (s : State n) : BindTst.Action n → Bool
  | .enter c => s.Finished c ∧ s.phase c < 8
  | _ => true

def State.step : Action n → Option (State n)
  | .barrier a =>
      if s.calls a then (s.cores.step a).map fun cores => { s with cores } else none
  | .skip c => if s.Ready c ∧ s.part c = .nothing then some (s.begin c) else none
  | .bind c =>
      match s.part c with
      | .bind j =>
          if s.Ready c then
            (Trans.Rebind.step n I.chooses s.id (.storeMf c (I.mf j) (I.arg j))).map fun id =>
              { s with id }.begin c
          else none
      | _ => none
  | .call c =>
      match s.part c with
      | .call j =>
          if s.Ready c then
            (Trans.Rebind.step n I.chooses s.id (.call c)).map fun id =>
              match s.id.entry c with
              | some r => ({ s with id }.begin c).check I c j r
              | none => { s with id }.begin c
          else none
      | _ => none
  | .goOn a =>
      if s.goesOn I a then (Trans.Rebind.step n I.chooses s.id a).map fun id => { s with id }
      else none
  | .finish c =>
      match s.part c, (s.id.miss c).obtained with
      | .call j, some r =>
          (Trans.Rebind.step n I.chooses s.id (.finish c)).map fun id =>
            { s with id }.check I c j r
      | _, _ => none

end

/-- `theId` is allocated and not bound, which counts as bind 0. -/
def machine (n : Nat) (I : Instances) : Machine (State n) (Action n) where
  init s := s.cores = boot n ∧ (Trans.Rebind.machine n I.chooses).init s.id ∧
    ∀ c, s.begun c = 0 ∧ s.passed c = true
  step s a := s.step I a

/-- The first core initialises the barrier when all cores are counted. -/
def AllCounted {n : Nat} (s : State n) : Action n → Prop
  | .barrier a => BindTst.AllCounted s.cores a
  | _ => True

instance {n : Nat} (s : State n) : (a : Action n) → Decidable (AllCounted s a)
  | .barrier a => inferInstanceAs (Decidable (BindTst.AllCounted s.cores a))
  | .skip _ | .bind _ | .call _ | .goOn _ | .finish _ => .isTrue trivial

/-! ### The words of the binds -/

open Trans.Rebind (Stored Obtained Miss)

/-- A stored word is the one of the instance of its bind. -/
def OfBind (word : Nat → Nat) (w : Stored) : Prop := ∀ j, w.bind = j + 1 → w.word = word j

/-- What a core has obtained has the words of binds, and its representative is the one that the
miss function chose. -/
def ObtainedOf (I : Instances) (r : Obtained) : Prop :=
  OfBind I.mf r.mf ∧ OfBind I.arg r.arg ∧ ∀ core, r.rep = I.chooses r.mf.word r.arg.word core

/-- The words that a miss holds are those of binds. -/
def HoldsOf (I : Instances) : Miss → Prop
  | .idle | .missed => True
  | .loadedMf mf => OfBind I.mf mf
  | .loaded mf arg => OfBind I.mf mf ∧ OfBind I.arg arg
  | .returned r | .cached r => ObtainedOf I r

section

variable {I : Instances} {n : Nat} {s t : Trans.Rebind.State} {a : Trans.Rebind.Action}

/-- All words in the translation of the id are those of binds. -/
structure Words (I : Instances) (s : Trans.Rebind.State) : Prop where
  mf : OfBind I.mf s.mf
  arg : OfBind I.arg s.arg
  storing : ∀ myid arg, s.binder = .storedMf myid arg → OfBind I.arg ⟨arg, s.binds⟩
  entry : ∀ c, ∀ r ∈ s.entry c, ObtainedOf I r
  miss : ∀ c, HoldsOf I (s.miss c)

theorem Words.setMiss (h : Words I s) {c : Nat} {m : Miss} (holds : HoldsOf I m) :
    Words I (s.setMiss c m) := by
  refine ⟨h.mf, h.arg, h.storing, h.entry, fun d => ?_⟩
  rw [Trans.Rebind.setMiss_apply]
  split_ifs
  · exact holds
  · exact h.miss d

theorem words_init (start : (Trans.Rebind.machine n I.chooses).init s) : Words I s := by
  obtain ⟨binds, mf, arg, binder, cores, _⟩ := start
  refine ⟨fun j bind => ?_, fun j bind => ?_, fun myid arg storing => ?_, fun c r member => ?_,
    fun c => ?_⟩
  · rw [mf] at bind
    cases bind
  · rw [arg] at bind
    cases bind
  · rw [binder] at storing
    cases storing
  · rw [(cores c).1] at member
    cases member
  · rw [(cores c).2]
    trivial

/-- Bind `j + 1` stores the words of instance `j`. -/
theorem Words.step (h : Words I s)
    (bind : ∀ core mf arg, a = .storeMf core mf arg → mf = I.mf s.binds ∧ arg = I.arg s.binds)
    (moved : Trans.Rebind.step n I.chooses s a = some t) : Words I t := by
  cases Trans.Rebind.step_effect moved with
  | storeMf core mf arg =>
      obtain ⟨rfl, rfl⟩ := bind core mf arg rfl
      have number : ∀ j, s.binds + 1 = j + 1 → s.binds = j := fun j same => Nat.succ.inj same
      refine ⟨fun j same => congrArg I.mf (number j same), h.arg, fun myid arg storing => ?_,
        h.entry, h.miss⟩
      cases storing
      exact fun j same => congrArg I.arg (number j same)
  | storeArg myid arg storing =>
      exact ⟨h.mf, h.storing myid arg storing, by simp, h.entry, h.miss⟩
  | reset myid picId =>
      refine ⟨h.mf, h.arg, fun myid arg storing => ?_, fun c r member => h.entry c r ?_, h.miss⟩
      · dsimp only at storing
        split_ifs at storing
      · by_cases same : c = picId
        · simp [same] at member
        · simpa [Function.update_of_ne same] using member
  | hit => exact h
  | call | finish => exact h.setMiss trivial
  | loadMf => exact h.setMiss h.mf
  | loadArg c mf _ loadedMf =>
      have holds := h.miss c
      rw [loadedMf] at holds
      exact h.setMiss ⟨holds, h.arg⟩
  | run c mf arg _ loaded =>
      have holds := h.miss c
      rw [loaded] at holds
      have kept : Words I (s.setMiss c (.returned ⟨I.chooses mf.word arg.word c, mf, arg⟩)) :=
        h.setMiss ⟨holds.1, holds.2, fun _ => rfl⟩
      exact ⟨kept.mf, kept.arg, kept.storing, kept.entry, kept.miss⟩
  | cacheObj c obtained _ returned =>
      have holds := h.miss c
      rw [returned] at holds
      have kept : Words I (s.setMiss c (.cached obtained)) := h.setMiss holds
      refine ⟨kept.mf, kept.arg, kept.storing, fun d r member => ?_, kept.miss⟩
      by_cases same : d = c
      · subst same
        obtain rfl : obtained = r := by simpa using member
        exact holds
      · exact h.entry d r (by simpa [Function.update_of_ne same] using member)

end

/-! ### What holds between the steps -/

theorem part_bind {m : Bool} {k j : Nat} (h : part m k = .bind j) : k = 2 * j + 2 := by
  unfold part at h
  grind

theorem part_call {m : Bool} {k j : Nat} (h : part m k = .call j) : k = 2 * j + 3 ∧ j < 3 := by
  unfold part at h
  grind

/-- The binds that core 0 has begun with its first `m` parts. -/
def bindsBegun (m : Nat) : Nat := if m ≤ 2 then 0 else if m ≤ 4 then 1 else if m ≤ 6 then 2 else 3

section

variable {n : Nat} {I : Instances} {s t : State n} {c d : Fin n} {i j : Nat}

/-- How often a core has called the barrier. -/
def State.entered (s : State n) (c : Fin n) : Nat := (s.cores.core c).entered

structure Good (I : Instances) (s : State n) : Prop where
  cores : (BindTst.machine n).ReachVia BindTst.AllCounted s.cores
  safe : Trans.Rebind.Safe n s.id
  words : Words I s.id
  begun : ∀ c, s.begun c = s.phase c ∨ s.begun c = s.phase c + 1
  finished : ∀ c, s.entered c = s.phase c + 1 → s.Finished c
  miss : ∀ c : Fin n, s.id.miss c ≠ .idle →
    s.begun c = s.phase c + 1 ∧ ∃ j, s.part c = .call j
  cached : ∀ c r, s.id.miss c = .cached r → s.id.entry c = some r
  binder : s.id.binder ≠ .idle →
    ∃ c : Fin n, c.val = 0 ∧ s.begun c = s.phase c + 1 ∧ ∃ j, s.part c = .bind j
  binds : ∀ c : Fin n, c.val = 0 → s.id.binds = bindsBegun (s.begun c)
  passed : ∀ c, s.passed c = true

theorem Good.separates (h : Good I s) : s.cores.calls.Separates :=
  Barrier.reach_separates (reach_calls h.cores)

theorem Good.entered_cases (h : Good I s) (c : Fin n) :
    s.entered c = s.phase c ∨ s.entered c = s.phase c + 1 := by
  obtain ⟨low, high⟩ := h.separates.once c
  exact (Nat.lt_or_ge (s.phase c) (s.entered c)).symm.imp (fun le => Nat.le_antisymm le low)
    fun lt => Nat.le_antisymm high lt

/-- A core with a miss has not yet called the barrier. -/
theorem Good.missing (h : Good I s) (missing : s.id.miss c ≠ .idle) : s.entered c = s.phase c :=
  (h.entered_cases c).resolve_right fun inside => missing (h.finished c inside).2.1

/-- While a core is in a part with a bind, nobody has a miss. -/
theorem Good.no_miss (h : Good I s) (part : s.part c = .bind i) (here : s.entered c = s.phase c)
    (core : Nat) : s.id.miss core = .idle := by
  by_contra missing
  by_cases small : core < n
  · let d : Fin n := ⟨core, small⟩
    obtain ⟨_, j, call⟩ := h.miss d missing
    have same : s.phase c = s.phase d := h.separates.left_eq here (h.missing (c := d) missing)
    have := part_bind part
    have := (part_call call).1
    omega
  · exact missing (h.safe.beyond core (by omega))

/-- While a core is in a part with a call, there is no bind, and the last one is that of the
part before. -/
theorem Good.bound (h : Good I s) (part : s.part c = .call j) (here : s.entered c = s.phase c) :
    s.id.binder = .idle ∧ s.id.binds = j + 1 := by
  obtain ⟨phase, small⟩ := part_call part
  let z : Fin n := ⟨0, Nat.zero_lt_of_lt c.isLt⟩
  have low : s.phase c ≤ s.entered z := h.separates.together c z
  have high : s.phase z ≤ s.phase c := (h.separates.together z c).trans_eq here
  have idle : s.id.binder = .idle := by
    by_contra binding
    obtain ⟨d, zero, _, i, bind⟩ := h.binder binding
    obtain rfl : d = z := Fin.ext zero
    obtain outside | inside := h.entered_cases z
    · have := part_bind bind
      change s.phase z = 2 * i + 2 at this
      omega
    · exact binding ((h.finished z inside).2.2 rfl)
  have begun : s.begun z = 2 * j + 3 ∨ s.begun z = 2 * j + 4 := by
    obtain outside | inside := h.entered_cases z
    · have := h.begun z
      omega
    · have := (h.finished z inside).1
      omega
  refine ⟨idle, ?_⟩
  rw [h.binds z rfl, bindsBegun]
  split_ifs <;> omega

/-! ### The steps -/

/-- The binds of a part. -/
def Part.binds : Part → Nat
  | .bind _ => 1
  | _ => 0

theorem bindsBegun_succ (k : Nat) : bindsBegun (k + 1) = bindsBegun k + (part true k).binds := by
  unfold bindsBegun part
  grind [Part.binds]

theorem bindsBegun_bind {m : Bool} {k : Nat} (h : part m k = .bind j) : bindsBegun k = j := by
  unfold part at h
  unfold bindsBegun
  grind

theorem part_other {k : Nat} : (part false k).binds = 0 := by
  unfold part
  grind [Part.binds]

/-- What a step does to the misses and to the binder. -/
theorem id_step {u v : Trans.Rebind.State} {a : Trans.Rebind.Action}
    (moved : Trans.Rebind.step n I.chooses u a = some v) :
    (∀ d, v.miss d ≠ .idle → u.miss d ≠ .idle ∨ a = .call d) ∧
    (v.binder ≠ .idle → u.binder ≠ .idle ∨ ∃ core mf arg, a = .storeMf core mf arg) ∧
    ((∀ core mf arg, a ≠ .storeMf core mf arg) → v.binds = u.binds) := by
  have other : ∀ {c : Nat} {m : Miss}, u.miss c ≠ .idle → ∀ d, (u.setMiss c m).miss d ≠ .idle →
      u.miss d ≠ .idle ∨ a = .call d := by
    intro c m busy d busy'
    rw [Trans.Rebind.setMiss_apply] at busy'
    split_ifs at busy' with same
    · exact .inl (same ▸ busy)
    · exact .inl busy'
  cases Trans.Rebind.step_effect moved with
  | storeMf core mf arg =>
      exact ⟨fun d busy => .inl busy, fun _ => .inr ⟨core, mf, arg, rfl⟩,
        fun others => absurd rfl (others core mf arg)⟩
  | storeArg _ _ storing =>
      exact ⟨fun d busy => .inl busy, fun _ => .inl (by simp [storing]), fun _ => rfl⟩
  | reset _ _ resetting =>
      exact ⟨fun d busy => .inl busy, fun _ => .inl (by simp [resetting]), fun _ => rfl⟩
  | hit => exact ⟨fun d busy => .inl busy, .inl, fun _ => rfl⟩
  | call c =>
      refine ⟨fun d busy => ?_, .inl, fun _ => rfl⟩
      rw [Trans.Rebind.setMiss_apply] at busy
      split_ifs at busy with same
      · exact .inr (same ▸ rfl)
      · exact .inl busy
  | loadMf c _ miss | loadArg c _ _ miss | run c _ _ _ miss | cacheObj c _ _ miss =>
      exact ⟨other (by simp [miss]), .inl, fun _ => rfl⟩
  | finish c _ obtained =>
      refine ⟨other (fun idle => ?_), .inl, fun _ => rfl⟩
      rw [idle] at obtained
      cases obtained

/-- What a miss has installed stays in the entry as long as no bind overlaps with a miss. -/
theorem cached_step {u v : Trans.Rebind.State} {a : Trans.Rebind.Action}
    (cached : ∀ c r, u.miss c = .cached r → u.entry c = some r)
    (calm : ∀ c, u.miss c ≠ .idle → u.binder = .idle)
    (moved : Trans.Rebind.step n I.chooses u a = some v) (c : Nat) (r : Obtained)
    (here : v.miss c = .cached r) : v.entry c = some r := by
  have moves : ∀ {d : Nat} {m : Miss}, m ≠ .cached r → (u.setMiss d m).miss c = .cached r →
      u.entry c = some r := by
    intro d m other here
    rw [Trans.Rebind.setMiss_apply] at here
    split_ifs at here
    · exact absurd here other
    · exact cached c r here
  cases Trans.Rebind.step_effect moved with
  | storeMf | storeArg | hit => exact cached c r here
  | reset _ _ resetting =>
      have here : u.miss c = .cached r := here
      have idle := calm c (by simp [here])
      rw [resetting] at idle
      cases idle
  | call | loadMf | loadArg | run | finish => exact moves (by simp) here
  | cacheObj d obtained =>
      dsimp only at here ⊢
      rw [Trans.Rebind.setMiss_apply] at here
      split_ifs at here with same
      · subst same
        cases here
        exact Function.update_self ..
      · rw [Function.update_of_ne same]
        exact cached c r here

/-- A core begins its part, with a step on the id. -/
theorem Good.begin {id : Trans.Rebind.State} (h : Good I s) (ready : s.Ready c)
    (safe : Trans.Rebind.Safe n id) (words : Words I id)
    (miss : ∀ d : Nat, id.miss d ≠ .idle →
      s.id.miss d ≠ .idle ∨ d = c ∧ ∃ j, s.part c = .call j)
    (cached : ∀ d r, id.miss d = .cached r → id.entry d = some r)
    (binder : id.binder ≠ .idle → s.id.binder ≠ .idle ∨ c.val = 0 ∧ ∃ j, s.part c = .bind j)
    (binds : id.binds = s.id.binds + (s.part c).binds) :
    Good I ({ s with id }.begin c) := by
  have outside : s.entered c = s.phase c := (reach_inv h.cores).outside ready.1
  have begun : ∀ d, ({ s with id }.begin c).begun d =
      if d = c then s.phase c + 1 else s.begun d := by
    intro d
    exact (Function.update_apply ..).trans (by rw [ready.2])
  refine ⟨h.cores, safe, words, fun d => ?_, fun d inside => ?_, fun d missing => ?_, cached,
    fun binding => ?_, fun d zero => ?_, h.passed⟩
  · rw [begun]
    split_ifs with same
    · exact .inr (same ▸ rfl)
    · exact h.begun d
  · have apart : d ≠ c := by
      rintro rfl
      change s.entered d = s.phase d + 1 at inside
      omega
    obtain ⟨done, idle, bound⟩ := h.finished d inside
    refine ⟨by rw [begun, if_neg apart]; exact done, ?_, fun zero => ?_⟩
    · by_contra missing
      exact (miss d missing).elim (absurd idle) fun here => apart (Fin.ext here.1)
    · by_contra binding
      exact (binder binding).elim (absurd (bound zero)) fun here =>
        apart (Fin.ext (zero.trans here.1.symm))
  · rw [begun]
    obtain before | ⟨here, call⟩ := miss d missing
    · obtain ⟨done, call⟩ := h.miss d before
      refine ⟨?_, call⟩
      split_ifs with same
      · exact same ▸ rfl
      · exact done
    · obtain rfl : d = c := Fin.ext here
      exact ⟨if_pos rfl, call⟩
  · obtain before | ⟨zero, bind⟩ := binder binding
    · obtain ⟨d, zero, done, bind⟩ := h.binder before
      refine ⟨d, zero, ?_, bind⟩
      rw [begun]
      split_ifs with same
      · exact same ▸ rfl
      · exact done
    · exact ⟨c, zero, by rw [begun, if_pos rfl]; rfl, bind⟩
  · rw [begun]
    change id.binds = _
    split_ifs with same
    · have master : s.part c = part true (s.phase c) := by
        rw [State.part, show c.val = 0 from same ▸ zero]
        rfl
      rw [binds, bindsBegun_succ, master, h.binds c (same ▸ zero), ready.2]
    · have other : s.part c = part false (s.phase c) := by
        rw [State.part, decide_eq_false fun zero' => same (Fin.ext (zero.trans zero'.symm))]
      rw [binds, other, part_other, h.binds d zero, Nat.add_zero]

/-- A step on the id within a part. -/
theorem Good.goOn {id : Trans.Rebind.State} (h : Good I s) (safe : Trans.Rebind.Safe n id)
    (words : Words I id) (miss : ∀ d : Nat, id.miss d ≠ .idle → s.id.miss d ≠ .idle)
    (cached : ∀ d r, id.miss d = .cached r → id.entry d = some r)
    (binder : id.binder ≠ .idle → s.id.binder ≠ .idle) (binds : id.binds = s.id.binds) :
    Good I { s with id } := by
  refine ⟨h.cores, safe, words, h.begun, fun d inside => ?_, fun d missing => h.miss d
    (miss d missing), cached, fun binding => h.binder (binder binding), fun d zero => ?_, h.passed⟩
  · obtain ⟨done, idle, bound⟩ := h.finished d inside
    refine ⟨done, ?_, fun zero => ?_⟩
    · by_contra missing
      exact miss d missing idle
    · by_contra binding
      exact binder binding (bound zero)
  · exact binds.trans (h.binds d zero)

/-- The calls and returns that a step of the barrier makes. -/
theorem cores_step {s t : BindTst.State n} {a : BindTst.Action n}
    (reached : (BindTst.machine n).ReachVia BindTst.AllCounted s) (counted : BindTst.AllCounted s a)
    (moved : s.step a = some t) :
    t.calls = s.calls ∨ (∃ c, a = .enter c ∧ t.calls = s.calls.enter c) ∨
      ∃ c, s.calls.entered c = s.calls.left c + 1 ∧ t.calls = s.calls.leave c := by
  have answered := ((reach_inv reached).step counted moved).1
  have leaves : ∀ {c}, s.calls.step (.leave c) = some t.calls →
      s.calls.entered c = s.calls.left c + 1 ∧ t.calls = s.calls.leave c := by
    intro c step
    obtain ⟨⟨inside, _⟩, same⟩ := Machine.of_guard step
    exact ⟨inside, same.symm⟩
  cases a with
  | allocateCoreId | init c | publish c | await c | arrive c | reset c =>
      exact .inl (Option.some.inj answered).symm
  | enter c =>
      obtain ⟨_, same⟩ := Machine.of_guard (Machine.exec_one.mp answered)
      exact .inr (.inl ⟨c, rfl, same.symm⟩)
  | release c => exact .inr (.inr ⟨c, leaves (Machine.exec_one.mp answered)⟩)
  | spin c =>
      rw [shows] at answered
      split_ifs at answered
      · exact .inr (.inr ⟨c, leaves (Machine.exec_one.mp answered)⟩)
      · exact .inl (Option.some.inj answered).symm

theorem Good.barrier {a : BindTst.Action n} {cores : BindTst.State n} (h : Good I s)
    (counted : BindTst.AllCounted s.cores a) (calls : s.calls a)
    (moved : s.cores.step a = some cores) : Good I { s with cores } := by
  have reached : (BindTst.machine n).ReachVia BindTst.AllCounted cores :=
    .step h.cores counted moved
  obtain same | ⟨c, rfl, enters⟩ | ⟨c, inside, leaves⟩ := cores_step h.cores counted moved
  · have phase : ∀ d, ({ s with cores } : State n).phase d = s.phase d := fun d =>
      congrFun (congrArg Barrier.Calls.left same) d
    have entered : ∀ d, ({ s with cores } : State n).entered d = s.entered d := fun d =>
      congrFun (congrArg Barrier.Calls.entered same) d
    refine ⟨reached, h.safe, h.words, fun d => ?_, fun d => ?_, fun d => ?_, h.cached,
      fun binding => ?_, h.binds, h.passed⟩
    · rw [phase]
      exact h.begun d
    · rw [entered, State.Finished, phase]
      exact h.finished d
    · rw [State.part, phase]
      exact h.miss d
    · obtain ⟨d, zero, done, bind⟩ := h.binder binding
      exact ⟨d, zero, by rw [phase]; exact done, by rw [State.part, phase]; exact bind⟩
  · have phase : ∀ d, ({ s with cores } : State n).phase d = s.phase d := fun d =>
      congrFun (congrArg Barrier.Calls.left enters) d
    have entered : ∀ d, d ≠ c → ({ s with cores } : State n).entered d = s.entered d := by
      intro d apart
      have other := congrFun (congrArg Barrier.Calls.entered enters) d
      rw [Barrier.Calls.enter_entered, if_neg apart] at other
      exact other
    have finished : s.Finished c := (of_decide_eq_true calls).1
    refine ⟨reached, h.safe, h.words, fun d => ?_, fun d => ?_, fun d => ?_, h.cached,
      fun binding => ?_, h.binds, h.passed⟩
    · rw [phase]
      exact h.begun d
    · rw [State.Finished, phase]
      by_cases same : d = c
      · exact fun _ => same ▸ finished
      · rw [entered d same]
        exact h.finished d
    · rw [State.part, phase]
      exact h.miss d
    · obtain ⟨d, zero, done, bind⟩ := h.binder binding
      exact ⟨d, zero, by rw [phase]; exact done, by rw [State.part, phase]; exact bind⟩
  · have entered : ∀ d, ({ s with cores } : State n).entered d = s.entered d := fun d =>
      congrFun (congrArg Barrier.Calls.entered leaves) d
    have phase : ∀ d, ({ s with cores } : State n).phase d =
        if d = c then s.phase c + 1 else s.phase d := by
      intro d
      have left := congrFun (congrArg Barrier.Calls.left leaves) d
      rw [Barrier.Calls.leave_left] at left
      exact left
    -- The core that leaves has finished its part, and is at the beginning of the next one.
    obtain ⟨done, idle, bound⟩ := h.finished c inside
    refine ⟨reached, h.safe, h.words, fun d => ?_, fun d => ?_, fun d missing => ?_, h.cached,
      fun binding => ?_, h.binds, h.passed⟩
    · rw [phase]
      split_ifs with same
      · exact .inl (same ▸ done)
      · exact h.begun d
    · rw [State.Finished, phase, entered]
      split_ifs with same
      · intro again
        have inside : s.entered c = s.phase c + 1 := inside
        rw [same] at again
        omega
      · exact h.finished d
    · have apart : d ≠ c := by
        rintro rfl
        exact missing idle
      rw [State.part, phase, if_neg apart]
      exact h.miss d missing
    · obtain ⟨d, zero, begun, bind⟩ := h.binder binding
      have apart : d ≠ c := by
        rintro rfl
        exact binding (bound zero)
      refine ⟨d, zero, ?_, ?_⟩
      · rw [phase, if_neg apart]
        exact begun
      · rw [State.part, phase, if_neg apart]
        exact bind

/-- What was obtained through the words of one bind answers with the result of its instance. -/
theorem ObtainedOf.returns {r : Obtained} (of : ObtainedOf I r) (mf_bind : r.mf.bind = j + 1)
    (arg_bind : r.arg.bind = j + 1) (small : j < 3) : I.rc r = expected j := by
  obtain ⟨mf, arg, rep⟩ := of
  have chosen := rep 0
  rw [mf j mf_bind, arg j arg_bind] at chosen
  rw [Instances.rc, mf j mf_bind, chosen]
  obtain rfl | rfl | rfl : j = 0 ∨ j = 1 ∨ j = 2 := by omega
  · exact if_pos rfl
  · have root : I.chooses (I.mf 1) (I.arg 1) 0 = I.rep0 :=
      (if_neg I.missFuncs).trans (if_pos rfl)
    rw [root]
    exact (if_neg I.missFuncs).trans (if_pos rfl)
  · have root : I.chooses (I.mf 2) (I.arg 2) 0 = I.rep1 :=
      (if_neg I.missFuncs).trans (if_neg I.roots)
    rw [root]
    exact (if_neg I.missFuncs).trans (if_neg I.reps)

/-- A call that was answered by the last bind. -/
theorem Good.check {r : Obtained} (h : Good I s) (part : s.part c = .call j)
    (of : ObtainedOf I r) (mf_bind : r.mf.bind = j + 1)
    (arg_bind : r.arg.bind = j + 1) : Good I (s.check I c j r) := by
  have passes : I.rc r = expected j := of.returns mf_bind arg_bind (part_call part).2
  refine ⟨h.cores, h.safe, h.words, h.begun, h.finished, h.miss, h.cached, h.binder, h.binds,
    fun d => ?_⟩
  rw [State.check]
  dsimp only
  rw [Function.update_apply]
  split_ifs
  · rw [h.passed c, Bool.true_and]
    exact decide_eq_true passes
  · exact h.passed d

/-- No bind is in progress while some core has a miss. -/
theorem Good.no_bind (h : Good I s) {core : Nat} (missing : s.id.miss core ≠ .idle) :
    s.id.binder = .idle := by
  by_contra binding
  obtain ⟨d, zero, done, i, bind⟩ := h.binder binding
  have here : s.entered d = s.phase d := (h.entered_cases d).resolve_right fun inside =>
    binding ((h.finished d inside).2.2 zero)
  exact missing (h.no_miss bind here core)

/-- The barrier keeps the discipline of binds and misses. -/
theorem Good.separated {a : Trans.Rebind.Action} {id : Trans.Rebind.State} (h : Good I s)
    (moved : Trans.Rebind.step n I.chooses s.id a = some id)
    (other : ∀ core mf arg, a ≠ .storeMf core mf arg) : Trans.Rebind.Separated n s.id a := by
  cases Trans.Rebind.step_effect moved with
  | storeMf core mf arg => exact absurd rfl (other core mf arg)
  | loadMf c _ missed =>
      have missing : s.id.miss c ≠ .idle := by simp [missed]
      have idle := h.no_bind missing
      simp [Trans.Rebind.Separated, idle, Trans.Rebind.Binder.betweenStores]
  | reset _ picId resetting =>
      intro picId resets w held
      by_cases missing : s.id.miss picId = .idle
      · rw [missing] at held
        cases held
      · rw [h.no_bind missing] at resets
        cases resets
  | storeArg | hit | call | loadArg | run | cacheObj | finish => trivial

theorem Good.safe_step {a : Trans.Rebind.Action} {id : Trans.Rebind.State} (h : Good I s)
    (separated : Trans.Rebind.Separated n s.id a)
    (moved : Trans.Rebind.step n I.chooses s.id a = some id) : Trans.Rebind.Safe n id := by
  have moved : (Trans.Rebind.machine n I.chooses).step s.id a = some id := moved
  exact h.safe.step separated moved

/-- What a core finds in its entry or obtains from a miss is of the last bind. -/
theorem Good.current (h : Good I s) (part : s.part c = .call j) (here : s.entered c = s.phase c) :
    (∀ r ∈ s.id.entry c, r.mf.bind = j + 1 ∧ r.arg.bind = j + 1) ∧
      ∀ w ∈ (s.id.miss c).holds, w.bind = j + 1 := by
  obtain ⟨idle, binds⟩ := h.bound part here
  have swept := h.safe.swept
  rw [Trans.Rebind.Swept, idle] at swept
  obtain ⟨entry, miss⟩ := swept c c.isLt
  exact ⟨fun r member => binds ▸ entry r member, fun w member => binds ▸ miss w member⟩

/-- So is the representative that a miss returns with, held by the miss or in the entry. -/
theorem Good.obtained {r : Obtained} (h : Good I s) (part : s.part c = .call j)
    (obtained : (s.id.miss c).obtained = some r) :
    ObtainedOf I r ∧ r.mf.bind = j + 1 ∧ r.arg.bind = j + 1 := by
  have missing : s.id.miss c ≠ .idle := by
    intro idle
    rw [idle] at obtained
    cases obtained
  obtain ⟨entry, held⟩ := h.current part (h.missing missing)
  have of := h.words.miss c
  cases miss : s.id.miss c with
  | returned r' =>
      rw [miss] at obtained of held
      cases obtained
      simp only [Trans.Rebind.Miss.holds, List.forall_mem_cons] at held
      exact ⟨of, held.1, held.2.1⟩
  | cached r' =>
      rw [miss] at obtained of
      cases obtained
      exact ⟨of, entry r (h.cached c r miss)⟩
  | idle | missed | loadedMf | loaded =>
      rw [miss] at obtained
      cases obtained

theorem Good.cached_step {a : Trans.Rebind.Action} {id : Trans.Rebind.State} (h : Good I s)
    (moved : Trans.Rebind.step n I.chooses s.id a = some id) :
    ∀ d r, id.miss d = .cached r → id.entry d = some r :=
  Test.cached_step h.cached (fun _ => h.no_bind) moved

theorem Good.bind {id : Trans.Rebind.State} (h : Good I s) (ready : s.Ready c)
    (part : s.part c = .bind j)
    (moved : Trans.Rebind.step n I.chooses s.id (.storeMf c (I.mf j) (I.arg j)) = some id) :
    Good I ({ s with id }.begin c) := by
  have outside : s.entered c = s.phase c := (reach_inv h.cores).outside ready.1
  have zero : c.val = 0 := by
    by_contra other
    rw [State.part, decide_eq_false other] at part
    have none := part_other (k := s.phase c)
    rw [part] at none
    cases none
  have number : s.id.binds = j := by
    rw [h.binds c zero, ready.2]
    exact bindsBegun_bind part
  have separated : Trans.Rebind.Separated n s.id (.storeMf c (I.mf j) (I.arg j)) := by
    intro d _
    rw [h.no_miss part outside d]
    rfl
  refine h.begin ready (h.safe_step separated moved) (h.words.step ?_ moved) (fun d busy => ?_)
    (h.cached_step moved) (fun _ => .inr ⟨zero, j, part⟩) ?_
  · intro core mf arg same
    cases same
    exact ⟨by rw [number], by rw [number]⟩
  · exact .inl (((id_step moved).1 d busy).resolve_right (by simp))
  · obtain ⟨_, rfl⟩ := Machine.of_guard moved
    rw [part]
    rfl

theorem Good.call {id : Trans.Rebind.State} (h : Good I s) (ready : s.Ready c)
    (part : s.part c = .call j)
    (moved : Trans.Rebind.step n I.chooses s.id (.call c) = some id) :
    Good I ({ s with id }.begin c) := by
  obtain ⟨miss, binder, binds⟩ := id_step moved
  refine h.begin ready (h.safe_step (h.separated moved (by simp)) moved)
    (h.words.step (by simp) moved) (fun d busy => ?_) (h.cached_step moved) (fun binding => ?_) ?_
  · refine (miss d busy).imp_right fun same => ⟨?_, j, part⟩
    cases same
    rfl
  · exact .inl ((binder binding).resolve_right (by simp))
  · rw [part]
    exact binds (by simp)

theorem Good.step {a : Action n} (h : Good I s) (counted : AllCounted s a)
    (moved : s.step I a = some t) : Good I t := by
  cases a with
  | barrier a =>
      obtain ⟨calls, moved⟩ := Option.ite_none_right_eq_some.mp moved
      obtain ⟨cores, step, rfl⟩ := Option.map_eq_some_iff.mp moved
      exact h.barrier counted calls step
  | skip c =>
      obtain ⟨⟨ready, part⟩, rfl⟩ := Machine.of_guard moved
      exact h.begin ready h.safe h.words (fun _ => .inl) h.cached .inl (by rw [part]; rfl)
  | bind c =>
      simp only [State.step] at moved
      split at moved
      · rename_i j part
        obtain ⟨ready, moved⟩ := Option.ite_none_right_eq_some.mp moved
        obtain ⟨id, step, rfl⟩ := Option.map_eq_some_iff.mp moved
        exact h.bind ready part step
      · cases moved
  | call c =>
      simp only [State.step] at moved
      split at moved
      · rename_i j part
        obtain ⟨ready, moved⟩ := Option.ite_none_right_eq_some.mp moved
        obtain ⟨id, step, rfl⟩ := Option.map_eq_some_iff.mp moved
        have after := h.call ready part step
        split
        · rename_i r cached
          have outside : s.entered c = s.phase c := (reach_inv h.cores).outside ready.1
          obtain ⟨mf_bind, arg_bind⟩ := (h.current part outside).1 r cached
          exact after.check part (h.words.entry c r cached) mf_bind arg_bind
        · exact after
      · cases moved
  | goOn a =>
      obtain ⟨goes, moved⟩ := Option.ite_none_right_eq_some.mp moved
      obtain ⟨id, step, rfl⟩ := Option.map_eq_some_iff.mp moved
      have noStore : ∀ core mf arg, a ≠ .storeMf core mf arg := by
        rintro core mf arg rfl
        cases goes
      obtain ⟨miss, binder, binds⟩ := id_step step
      refine h.goOn (h.safe_step (h.separated step noStore) step)
        (h.words.step (fun core mf arg same => absurd same (noStore core mf arg)) step)
        (fun d busy => ?_) (h.cached_step step) (fun binding => ?_) (binds noStore)
      · refine (miss d busy).resolve_right ?_
        rintro rfl
        cases goes
      · exact (binder binding).resolve_right fun ⟨core, mf, arg, same⟩ => noStore core mf arg same
  | finish c =>
      simp only [State.step] at moved
      split at moved
      · rename_i j r part obtained
        obtain ⟨id, step, rfl⟩ := Option.map_eq_some_iff.mp moved
        have noStore : ∀ core mf arg, Trans.Rebind.Action.finish c.val ≠ .storeMf core mf arg := by
          simp
        obtain ⟨miss, binder, binds⟩ := id_step step
        obtain ⟨of, mf_bind, arg_bind⟩ := h.obtained part obtained
        have after : Good I { s with id } := by
          refine h.goOn (h.safe_step (h.separated step noStore) step)
            (h.words.step (fun core mf arg same => absurd same (noStore core mf arg)) step)
            (fun d busy => ?_) (h.cached_step step) (fun binding => ?_) (binds noStore)
          · exact (miss d busy).resolve_right (by simp)
          · exact (binder binding).resolve_right (by simp)
        exact after.check part of mf_bind arg_bind
      · cases moved

theorem good_init (start : (machine n I).init s) : Good I s := by
  obtain ⟨cores, id, fresh⟩ := start
  have unbound := id
  obtain ⟨binds, _, _, binder, calm, _⟩ := unbound
  have phase : ∀ c, s.phase c = 0 := by
    intro c
    rw [State.phase, cores]
    rfl
  have entered : ∀ c, s.entered c = 0 := by
    intro c
    rw [State.entered, cores]
    rfl
  refine ⟨.init cores, Trans.Rebind.safe_init id, words_init id,
    fun c => .inl ((fresh c).1.trans (phase c).symm), fun c inside => ?_,
    fun c missing => absurd (calm c).2 missing, fun c r cached => ?_,
    fun binding => absurd binder binding,
    fun c _ => ?_, fun c => (fresh c).2⟩
  · rw [entered, phase] at inside
    cases inside
  · rw [(calm c).2] at cached
    cases cached
  · rw [(fresh c).1]
    exact binds

theorem reach_good (reached : (machine n I).ReachVia AllCounted s) : Good I s := by
  induction reached with
  | init start => exact good_init start
  | step _ counted moved ih => exact ih.step counted moved

end

/-- No core ever finds a wrong result, whatever the order of the steps is, and no bind of the id
overlaps with a miss of it. -/
theorem bindtst_passes {n : Nat} {I : Instances} {s : State n}
    (reached : (machine n I).ReachVia AllCounted s) :
    (∀ c, s.passed c = true) ∧ ∀ core, s.id.miss core ≠ .idle → s.id.binder = .idle :=
  ⟨(reach_good reached).passed, fun _ => (reach_good reached).no_bind⟩

def sample : Instances where
  nullmissmf := 1
  cobjEBBMissFunc := 2
  root0 := 16
  root1 := 24
  rep0 := 32
  rep1 := 40
  missFuncs := by decide
  roots := by decide
  reps := by decide

/-- Both cores call the barrier. -/
def round : List (Action 2) :=
  [.barrier (.enter first), .barrier (.arrive first), .barrier (.enter second),
    .barrier (.arrive second), .barrier (.reset second), .barrier (.release second),
    .barrier (.spin first)]

/-- Up to the first calls of the service. -/
def called : List (Action 2) :=
  [.barrier .allocateCoreId, .barrier .allocateCoreId, .barrier (.init first),
    .barrier (.publish first), .barrier (.await second), .skip first, .skip second] ++ round ++
    [.skip first, .skip second] ++ round ++
    [.bind first, .goOn .storeArg, .goOn .reset, .skip second, .goOn .reset] ++ round ++
    [.call first, .call second, .goOn (.loadMf 0), .goOn (.loadArg 0), .goOn (.run 0),
      .finish first]

def fresh : State 2 where
  cores := boot 2
  id :=
    { mf := ⟨0, 0⟩, arg := ⟨0, 0⟩, corebv := 0, entry := fun _ => none, binds := 0,
      binder := .idle, miss := fun _ => .idle, invoked := [] }
  begun _ := 0
  passed _ := true

def final : State 2 :=
  ((machine 2 sample).execVia AllCounted fresh called).get (by decide +kernel)

theorem final_passes :
    (∀ c, final.passed c = true) ∧
      ∀ core, final.id.miss core ≠ .idle → final.id.binder = .idle :=
  bindtst_passes (Machine.reachVia_of_execVia
    ⟨rfl, ⟨rfl, rfl, rfl, rfl, fun _ => ⟨rfl, rfl⟩, rfl⟩, fun _ => ⟨rfl, rfl⟩⟩
    (Option.some_get _).symm)

end EBBLib.BindTst.Test
