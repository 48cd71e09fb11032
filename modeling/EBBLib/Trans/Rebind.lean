import EBBLib.Library.Transition
import EBBLib.Trans.Table

/-!
# Binds and misses in flight

One core rebinds an id while the cores call it, and no lock orders the two. A bind
stores the miss function and the argument and then resets the local entry of each
core. A miss loads the two words, runs the miss function and may install the
representative. Each of these is one step here, for one id on `n` cores.

The two words of the global entry carry the number of the bind that stored them. The
interleavings are unrestricted in `machine`: a miss can combine words of two binds,
and it can install a representative of an earlier bind after its core's entry has
been reset. `Separated` is the discipline under which neither happens.
-/

namespace EBBLib.Trans.Rebind

/-- A word of the global entry with the number of the bind that stored it. -/
structure Stored where
  word : Nat
  bind : Nat
deriving DecidableEq, Repr

/-- A representative with the words of the miss that obtained it. -/
structure Obtained where
  rep : Nat
  mf : Stored
  arg : Stored
deriving DecidableEq, Repr

/-- The core that binds: between `TransEBBIdBind`s, before its store of the argument,
or before its reset of the entry of `picId`. -/
inductive Binder where
  | idle
  | storedMf (myid arg : Nat)
  | resetting (myid picId : Nat)
deriving DecidableEq, Repr

/-- The call of a core: none, a miss before its first load, between its loads, before
the miss function, with the representative that the miss function chose, or with one
that it has installed, which it does once at most. -/
inductive Miss where
  | idle
  | missed
  | loadedMf (mf : Stored)
  | loaded (mf arg : Stored)
  | returned (obtained : Obtained)
  | cached (obtained : Obtained)
deriving DecidableEq, Repr

/-- The bind is between its two stores. -/
def Binder.betweenStores : Binder → Bool
  | .storedMf _ _ => true
  | _ => false

/-- The core whose entry the bind is about to reset. -/
def Binder.resets : Binder → Option Nat
  | .resetting _ picId => some picId
  | _ => none

/-- The miss is between its two loads. -/
def Miss.betweenLoads : Miss → Bool
  | .loadedMf _ => true
  | _ => false

/-- The words of the global entry that a miss holds. What it has installed is no longer
its own: the next bind takes it out of the entry. -/
def Miss.holds : Miss → List Stored
  | .idle => []
  | .missed => []
  | .loadedMf mf => [mf]
  | .loaded mf arg => [mf, arg]
  | .returned obtained => [obtained.mf, obtained.arg]
  | .cached _ => []

/-- The representative that the method is called on. -/
def Miss.obtained : Miss → Option Obtained
  | .returned obtained => some obtained
  | .cached obtained => some obtained
  | _ => none

/-- The global entry, the local entries (`none` in the default state), the binder, the
calls, and the words of each invocation of a miss function so far. -/
structure State where
  mf : Stored
  arg : Stored
  corebv : Nat
  entry : Nat → Option Obtained
  binds : Nat
  binder : Binder
  miss : Nat → Miss
  invoked : List (Stored × Stored)

/-- The atomic steps of a bind and of a call. -/
inductive Action where
  | storeMf (core mf arg : Nat)
  | storeArg
  | reset
  | call (core : Nat)
  | loadMf (core : Nat)
  | loadArg (core : Nat)
  | run (core : Nat)
  | cacheObj (core : Nat)
  | finish (core : Nat)
deriving DecidableEq, Repr

/-- The call of a core moves on. -/
def State.setMiss (s : State) (c : Nat) (m : Miss) : State :=
  { s with miss := Function.update s.miss c m }

/-- One step on `n` cores, where miss functions choose representatives by their two
words and the core. -/
def step (n : Nat) (chooses : Nat → Nat → Nat → Nat) (s : State) : Action → Option State
  | .storeMf core mf arg =>
      if core < n ∧ s.binder = .idle then
        some { s with mf := ⟨mf, s.binds + 1⟩, binds := s.binds + 1, binder := .storedMf core arg }
      else none
  | .storeArg =>
      match s.binder with
      | .storedMf myid arg => some { s with arg := ⟨arg, s.binds⟩, binder := .resetting myid myid }
      | _ => none
  | .reset =>
      match s.binder with
      | .resetting myid picId =>
          let entry :=
            if coreUsed s.corebv picId then Function.update s.entry picId none else s.entry
          let next := getNextLpic n picId
          some { s with entry, binder := if next = myid then .idle else .resetting myid next }
      | _ => none
  | .call c =>
      if c < n ∧ s.miss c = .idle then
        -- A call on a cached representative runs its method and is over.
        if (s.entry c).isSome then some s else some (s.setMiss c .missed)
      else none
  | .loadMf c =>
      if c < n ∧ s.miss c = .missed then some (s.setMiss c (.loadedMf s.mf)) else none
  | .loadArg c =>
      match s.miss c with
      | .loadedMf mf => if c < n then some (s.setMiss c (.loaded mf s.arg)) else none
      | _ => none
  | .run c =>
      match s.miss c with
      | .loaded mf arg =>
          if c < n then
            let s := s.setMiss c (.returned ⟨chooses mf.word arg.word c, mf, arg⟩)
            some { s with invoked := (mf, arg) :: s.invoked }
          else none
      | _ => none
  | .cacheObj c =>
      match s.miss c with
      | .returned obtained =>
          if c < n then
            let s := s.setMiss c (.cached obtained)
            some { s with entry := Function.update s.entry c (some obtained)
                          corebv := s.corebv ||| 2 ^ c }
          else none
      | _ => none
  | .finish c =>
      if c < n ∧ (s.miss c).obtained.isSome then some (s.setMiss c .idle) else none

/-- All interleavings on `n` cores after a first bind, numbered 0. -/
def machine (n : Nat) (chooses : Nat → Nat → Nat → Nat) : Machine State Action where
  init s := s.binds = 0 ∧ s.mf.bind = 0 ∧ s.arg.bind = 0 ∧ s.binder = .idle ∧
    (∀ c, s.entry c = none ∧ s.miss c = .idle) ∧ s.invoked = []
  step := step n chooses

/-- Every miss function was invoked with the argument of its own bind. -/
def Matched (s : State) : Prop := ∀ p ∈ s.invoked, p.1.bind = p.2.bind

/-- The local entry of a core caches no representative of an earlier bind. -/
def EntryCurrent (s : State) (c : Nat) : Prop :=
  ∀ r ∈ s.entry c, r.mf.bind = s.binds ∧ r.arg.bind = s.binds

/-- The discipline. No bind starts while a miss is between its loads, no miss starts to
load while a bind is between its stores, and no bind resets the entry of a core while
a miss of that core still holds words of an earlier bind. A miss whose representative
is installed may overlap with everything. -/
def Separated (n : Nat) (s : State) : Action → Prop
  | .storeMf _ _ _ => ∀ c < n, (s.miss c).betweenLoads = false
  | .loadMf _ => s.binder.betweenStores = false
  | .reset => ∀ picId ∈ s.binder.resets, ∀ w ∈ (s.miss picId).holds, w.bind = s.binds
  | _ => True

instance (s : State) : Decidable (Matched s) := inferInstanceAs (Decidable (∀ p ∈ s.invoked, _))

instance (s : State) (c : Nat) : Decidable (EntryCurrent s c) :=
  inferInstanceAs (Decidable (∀ r ∈ s.entry c, _))

instance (n : Nat) (s : State) : (a : Action) → Decidable (Separated n s a)
  | .storeMf _ _ _ => inferInstanceAs (Decidable (∀ c < n, _))
  | .loadMf _ => inferInstanceAs (Decidable (_ = false))
  | .reset => inferInstanceAs (Decidable (∀ picId ∈ s.binder.resets, _))
  | .storeArg | .call _ | .loadArg _ | .run _ | .cacheObj _ | .finish _ => .isTrue trivial

/-- What a step does, with what it has found. The bit of a core in `corebv` does not matter to
a reset. -/
inductive Effect (n : Nat) (chooses : Nat → Nat → Nat → Nat) (s : State) : Action → State → Prop
  | storeMf (core mf arg : Nat) (hc : core < n) (idle : s.binder = .idle) :
      Effect n chooses s (.storeMf core mf arg)
        { s with mf := ⟨mf, s.binds + 1⟩, binds := s.binds + 1, binder := .storedMf core arg }
  | storeArg (myid arg : Nat) (storing : s.binder = .storedMf myid arg) :
      Effect n chooses s .storeArg
        { s with arg := ⟨arg, s.binds⟩, binder := .resetting myid myid }
  | reset (myid picId : Nat) (resetting : s.binder = .resetting myid picId) :
      Effect n chooses s .reset
        { s with
          entry := Function.update s.entry picId none
          binder :=
            if getNextLpic n picId = myid then .idle
            else .resetting myid (getNextLpic n picId) }
  | hit (c : Nat) : Effect n chooses s (.call c) s
  | call (c : Nat) (hc : c < n) (idle : s.miss c = .idle) :
      Effect n chooses s (.call c) (s.setMiss c .missed)
  | loadMf (c : Nat) (hc : c < n) (missed : s.miss c = .missed) :
      Effect n chooses s (.loadMf c) (s.setMiss c (.loadedMf s.mf))
  | loadArg (c : Nat) (mf : Stored) (hc : c < n) (loadedMf : s.miss c = .loadedMf mf) :
      Effect n chooses s (.loadArg c) (s.setMiss c (.loaded mf s.arg))
  | run (c : Nat) (mf arg : Stored) (hc : c < n) (loaded : s.miss c = .loaded mf arg) :
      Effect n chooses s (.run c)
        { s.setMiss c (.returned ⟨chooses mf.word arg.word c, mf, arg⟩) with
          invoked := (mf, arg) :: s.invoked }
  | cacheObj (c : Nat) (obtained : Obtained) (hc : c < n)
      (returned : s.miss c = .returned obtained) :
      Effect n chooses s (.cacheObj c)
        { s.setMiss c (.cached obtained) with
          entry := Function.update s.entry c (some obtained)
          corebv := s.corebv ||| 2 ^ c }
  | finish (c : Nat) (hc : c < n) (obtained : (s.miss c).obtained.isSome) :
      Effect n chooses s (.finish c) (s.setMiss c .idle)

/-! ### The invariant -/

/-- Neither the entry nor the miss of a core has words of an earlier bind. -/
def Current (s : State) (c : Nat) : Prop :=
  EntryCurrent s c ∧ ∀ w ∈ (s.miss c).holds, w.bind = s.binds

/-- The cores that the current bind has passed by. -/
def Swept (n : Nat) (s : State) : Prop :=
  match s.binder with
  | .idle => ∀ c < n, Current s c
  | .storedMf myid _ => myid < n
  | .resetting myid picId => myid < n ∧ ∃ j < n, picId = (myid + j) % n ∧
      ∀ i < j, Current s ((myid + i) % n)

/-- The state in a run that keeps the discipline. -/
structure Safe (n : Nat) (s : State) : Prop where
  mf : s.mf.bind = s.binds
  arg : s.binder.betweenStores = false → s.arg.bind = s.binds
  between : ∀ c mf, s.miss c = .loadedMf mf →
    mf.bind = s.binds ∧ s.binder.betweenStores = false
  paired : ∀ c mf arg, s.miss c = .loaded mf arg → mf.bind = arg.bind
  beyond : ∀ c, n ≤ c → s.miss c = .idle
  matched : Matched s
  swept : Swept n s

section

variable {n : Nat} {chooses : Nat → Nat → Nat → Nat} {s t : State}

theorem step_effect {a : Action} (moved : step n chooses s a = some t) :
    Effect n chooses s a t := by
  cases a with
  | storeMf core mf arg =>
      obtain ⟨⟨hc, idle⟩, rfl⟩ := Machine.of_guard moved
      exact .storeMf core mf arg hc idle
  | storeArg =>
      simp only [step] at moved
      split at moved
      · rename_i myid arg storing
        cases moved
        exact .storeArg myid arg storing
      · cases moved
  | reset =>
      simp only [step, coreUsed_eq, if_true] at moved
      split at moved
      · rename_i myid picId resetting
        cases moved
        exact .reset myid picId resetting
      · cases moved
  | call c =>
      simp only [step, Option.ite_none_right_eq_some] at moved
      obtain ⟨⟨hc, idle⟩, moved⟩ := moved
      split at moved
      · cases moved
        exact .hit c
      · cases moved
        exact .call c hc idle
  | loadMf c =>
      obtain ⟨⟨hc, missed⟩, rfl⟩ := Machine.of_guard moved
      exact .loadMf c hc missed
  | loadArg c =>
      simp only [step] at moved
      split at moved
      · rename_i mf loadedMf
        obtain ⟨hc, rfl⟩ := Machine.of_guard moved
        exact .loadArg c mf hc loadedMf
      · cases moved
  | run c =>
      simp only [step] at moved
      split at moved
      · rename_i mf arg loaded
        obtain ⟨hc, rfl⟩ := Machine.of_guard moved
        exact .run c mf arg hc loaded
      · cases moved
  | cacheObj c =>
      simp only [step] at moved
      split at moved
      · rename_i obtained returned
        obtain ⟨hc, rfl⟩ := Machine.of_guard moved
        exact .cacheObj c obtained hc returned
      · cases moved
  | finish c =>
      obtain ⟨⟨hc, obtained⟩, rfl⟩ := Machine.of_guard moved
      exact .finish c hc obtained

/-- A step of a call keeps the swept cores swept. -/
theorem Swept.mono (h : Swept n s) (binder : t.binder = s.binder)
    (current : ∀ c, Current s c → Current t c) : Swept n t := by
  unfold Swept at h ⊢
  rw [binder]
  split at h
  · exact fun c hc => current c (h c hc)
  · exact h
  · obtain ⟨hc, j, hj, here, passed⟩ := h
    exact ⟨hc, j, hj, here, fun i hi => current _ (passed i hi)⟩

theorem setMiss_apply (s : State) (c d : Nat) (m : Miss) :
    (s.setMiss c m).miss d = if d = c then m else s.miss d :=
  Function.update_apply ..

theorem current_setMiss {c : Nat} {m : Miss}
    (holds : ∀ w ∈ m.holds, w ∈ (s.miss c).holds ∨ w.bind = s.binds) (d : Nat)
    (h : Current s d) : Current (s.setMiss c m) d := by
  refine ⟨h.1, fun w mem => ?_⟩
  rw [setMiss_apply] at mem
  split at mem
  · rename_i here
    rcases holds w mem with held | current
    · exact h.2 w (here ▸ held)
    · exact current
  · exact h.2 w mem

/-- The rule for a step that moves the miss of one core. -/
theorem Safe.setMiss (r : Safe n s) {c : Nat} {m : Miss} (hc : c < n)
    (holds : ∀ w ∈ m.holds, w ∈ (s.miss c).holds ∨ w.bind = s.binds)
    (between : ∀ mf, m = .loadedMf mf →
      mf.bind = s.binds ∧ s.binder.betweenStores = false)
    (paired : ∀ mf arg, m = .loaded mf arg → mf.bind = arg.bind) :
    Safe n (s.setMiss c m) := by
  refine ⟨r.mf, r.arg, ?_, ?_, ?_, r.matched, r.swept.mono rfl (current_setMiss holds)⟩
  · intro d mf at_
    rw [setMiss_apply] at at_
    split at at_
    · exact between mf at_
    · exact r.between d mf at_
  · intro d mf arg at_
    rw [setMiss_apply] at at_
    split at at_
    · exact paired mf arg at_
    · exact r.paired d mf arg at_
  · intro d beyond
    rw [setMiss_apply, if_neg (by omega)]
    exact r.beyond d beyond

/-- Only the miss function's result leaves the words of a miss behind. -/
theorem Safe.invoke (r : Safe n s) {p : Stored × Stored} (matched : p.1.bind = p.2.bind) :
    Safe n { s with invoked := p :: s.invoked } := by
  refine ⟨r.mf, r.arg, r.between, r.paired, r.beyond, ?_, r.swept.mono rfl fun _ h => h⟩
  intro q mem
  rcases List.mem_cons.mp mem with rfl | old
  · exact matched
  · exact r.matched q old

/-- An installed representative comes from the words that its miss holds. -/
theorem Safe.install (r : Safe n s) {c : Nat} {obtained : Obtained}
    (miss : s.miss c = .returned obtained) (corebv : Nat) :
    Safe n { s with entry := Function.update s.entry c (some obtained), corebv } := by
  refine ⟨r.mf, r.arg, r.between, r.paired, r.beyond, r.matched, r.swept.mono rfl fun d h => ?_⟩
  refine ⟨fun q mem => ?_, h.2⟩
  by_cases here : d = c
  · subst here
    obtain rfl : obtained = q := by simpa using mem
    have held := h.2
    simp only [miss, Miss.holds, List.forall_mem_cons] at held
    exact ⟨held.1, held.2.1⟩
  · exact h.1 q (by simpa [Function.update_of_ne here] using mem)

/-- A bind may start when no miss is between its loads. -/
theorem Safe.storeMf (r : Safe n s) {core mf arg : Nat} (hc : core < n)
    (separated : ∀ c < n, (s.miss c).betweenLoads = false) :
    Safe n { s with
      mf := ⟨mf, s.binds + 1⟩, binds := s.binds + 1, binder := .storedMf core arg } := by
  refine ⟨rfl, by simp [Binder.betweenStores], ?_, r.paired, r.beyond, r.matched, hc⟩
  intro c mf at_
  have at_ : s.miss c = .loadedMf mf := at_
  by_cases started : c < n
  · have idle := separated c started
    rw [at_] at idle
    cases idle
  · rw [r.beyond c (by omega)] at at_
    cases at_

/-- A reset takes the current bind past one more core. -/
theorem Safe.reset (r : Safe n s) {myid picId : Nat} (binder : s.binder = .resetting myid picId)
    (separated : ∀ w ∈ (s.miss picId).holds, w.bind = s.binds) :
    Safe n
      { s with
        entry := Function.update s.entry picId none
        binder :=
          if getNextLpic n picId = myid then .idle
          else .resetting myid (getNextLpic n picId) } := by
  have swept := r.swept
  rw [Swept, binder] at swept
  obtain ⟨hc, j, hj, here, passed⟩ := swept
  have stored : s.arg.bind = s.binds := r.arg (by rw [binder]; rfl)
  -- The core that is reset joins the cores that were passed before.
  have current : ∀ i ≤ j, Current { s with entry := Function.update s.entry picId none }
      ((myid + i) % n) := by
    intro i hi
    by_cases now : (myid + i) % n = picId
    · refine ⟨fun q mem => ?_, now ▸ separated⟩
      simp [now] at mem
    · have before : i < j := Nat.lt_of_le_of_ne hi fun same => now (by rw [here, same])
      refine ⟨fun q mem => (passed i before).1 q ?_, (passed i before).2⟩
      simpa [Function.update_of_ne now] using mem
  have next : getNextLpic n picId = (myid + (j + 1)) % n := by rw [here, getNextLpic_mod]
  refine ⟨r.mf, fun _ => stored, fun c mf at_ => ⟨(r.between c mf at_).1, ?_⟩, r.paired, r.beyond,
    r.matched, ?_⟩
  · simp only
    split <;> rfl
  · by_cases last : j + 1 = n
    · have wrapped : getNextLpic n picId = myid := by rw [next, last, visited_round hc]
      simp only [if_pos wrapped, Swept]
      intro c hcn
      obtain ⟨i, hi, visit⟩ := exists_visit hc hcn
      exact visit ▸ current i (by omega)
    · have ahead : getNextLpic n picId ≠ myid := by
        rw [next]
        exact visited_ne hc (by omega) (by omega)
      simp only [if_neg ahead, Swept]
      exact ⟨hc, j + 1, by omega, next, fun i hi => current i (by omega)⟩

theorem safe_init (start : (machine n chooses).init s) : Safe n s := by
  obtain ⟨binds, mf, arg, binder, cores, invoked⟩ := start
  refine ⟨by rw [mf, binds], fun _ => by rw [arg, binds], ?_, ?_, fun c _ => (cores c).2, ?_, ?_⟩
  · intro c mf at_
    rw [(cores c).2] at at_
    cases at_
  · intro c mf arg at_
    rw [(cores c).2] at at_
    cases at_
  · simp [Matched, invoked]
  · rw [Swept, binder]
    intro c _
    simp [Current, EntryCurrent, cores c, Miss.holds]

/-- Every step that keeps the discipline is safe. -/
theorem Safe.step (r : Safe n s) {a : Action} (separated : Separated n s a)
    (moved : (machine n chooses).step s a = some t) : Safe n t := by
  cases step_effect moved with
  | storeMf _ _ _ hc => exact r.storeMf hc separated
  | storeArg myid arg storing =>
      have hc : myid < n := by simpa only [Swept, storing] using r.swept
      refine ⟨r.mf, fun _ => rfl, fun c mf at_ => ⟨(r.between c mf at_).1, rfl⟩, r.paired,
        r.beyond, r.matched, hc, 0, by omega, ?_, by omega⟩
      rw [Nat.add_zero, Nat.mod_eq_of_lt hc]
  | reset myid picId resetting =>
      exact r.reset resetting (separated picId (by simp [resetting, Binder.resets]))
  | hit => exact r
  | call c hc => exact r.setMiss hc (by simp [Miss.holds]) (by simp) (by simp)
  | loadMf c hc =>
      refine r.setMiss hc (by simp [Miss.holds, r.mf]) (fun mf same => ?_) (by simp)
      cases same
      exact ⟨r.mf, separated⟩
  | loadArg c mf hc loadedMf =>
      obtain ⟨current, outside⟩ := r.between c mf loadedMf
      have stored := r.arg outside
      refine r.setMiss hc (by simp [Miss.holds, stored, current]) (by simp)
        fun mf' arg' same => ?_
      cases same
      rw [current, stored]
  | run c mf arg hc loaded =>
      exact (r.setMiss hc (by simp [Miss.holds, loaded]) (by simp) (by simp)).invoke
        (r.paired c mf arg loaded)
  | cacheObj c obtained hc returned =>
      exact (r.install returned _).setMiss hc (by simp [Miss.holds]) (by simp) (by simp)
  | finish c hc => exact r.setMiss hc (by simp [Miss.holds]) (by simp) (by simp)

end

/-- Under the discipline, no miss function is invoked with the argument of another bind,
and once a bind has returned no core caches a representative of an earlier one. -/
theorem rebind_separated (n : Nat) (chooses : Nat → Nat → Nat → Nat) {s : State}
    (run : (machine n chooses).ReachVia (Separated n) s) :
    Matched s ∧ (s.binder = .idle → ∀ c < n, EntryCurrent s c) := by
  have safe : Safe n s :=
    run.invariant (I := Safe n) (fun _ => safe_init) fun _ _ _ _ r separated moved =>
      r.step separated moved
  refine ⟨safe.matched, fun idle c hc => ?_⟩
  have swept := safe.swept
  rw [Swept, idle] at swept
  exact (swept c hc).1

/-- A state after the bind of the miss function 10 with argument 20. -/
def sample : State :=
  { mf := ⟨10, 0⟩, arg := ⟨20, 0⟩, corebv := 0, entry := fun _ => none, binds := 0,
    binder := .idle, miss := fun _ => .idle, invoked := [] }

theorem sample_init : (machine 2 fun mf _ _ => mf).init sample :=
  ⟨rfl, rfl, rfl, rfl, fun _ => ⟨rfl, rfl⟩, rfl⟩

/-- A miss that installs its representative during a bind, before its core is reset, and
returns after that. -/
theorem rebind_separated_sample :
    ∃ s, (machine 2 fun mf _ _ => mf).ReachVia (Separated 2) s ∧ s.binds = 1 ∧
      Matched s ∧ (s.binder = .idle → ∀ c < 2, EntryCurrent s c) := by
  have run : ((machine 2 fun mf _ _ => mf).execVia (Separated 2) sample
      [.call 1, .loadMf 1, .loadArg 1, .storeMf 0 11 21, .run 1, .storeArg, .reset, .cacheObj 1,
        .reset, .finish 1]).any fun s => s.binds = 1 := by decide
  obtain ⟨s, moved, binds⟩ := (Option.any_eq_true _ _).mp run
  have reached := Machine.reachVia_of_execVia sample_init moved
  exact ⟨s, reached, by simpa using binds, rebind_separated 2 _ reached⟩

/-- Without the discipline, a miss function is invoked with the argument of another bind,
and a core is left with a representative of an earlier bind when all is quiet. -/
theorem exists_torn_and_stale :
    (∃ s, (machine 2 fun mf _ _ => mf).Reach s ∧ ¬ Matched s) ∧
      ∃ s, (machine 2 fun mf _ _ => mf).Reach s ∧ s.binder = .idle ∧
        (∀ c < 2, s.miss c = .idle) ∧ ¬ EntryCurrent s 1 := by
  have torn : ((machine 2 fun mf _ _ => mf).exec sample
      [.call 1, .loadMf 1, .storeMf 0 11 21, .storeArg, .loadArg 1, .run 1]).any
        fun s => ¬ Matched s := by decide
  have stale : ((machine 2 fun mf _ _ => mf).exec sample
      [.call 1, .loadMf 1, .loadArg 1, .run 1, .storeMf 0 11 21, .storeArg, .reset, .reset,
        .cacheObj 1, .finish 1]).any
        fun s => s.binder = .idle ∧ (∀ c < 2, s.miss c = .idle) ∧ ¬ EntryCurrent s 1 := by decide
  obtain ⟨s, moved, bad⟩ := (Option.any_eq_true _ _).mp torn
  obtain ⟨t, moved', bad'⟩ := (Option.any_eq_true _ _).mp stale
  exact ⟨⟨s, Machine.reachVia_of_execVia sample_init moved, of_decide_eq_true bad⟩,
    t, Machine.reachVia_of_execVia sample_init moved', of_decide_eq_true bad'⟩

end EBBLib.Trans.Rebind
