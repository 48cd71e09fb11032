import EBBLib.Library.Transition
import EBBLib.Trans.Table

/-!
# Dispatch through the translation cache

The state machine of binds and object calls by any cores, after `trans_init` on
each of the started cores. Every operation is one step. The ghost `binding` holds
the miss function and argument of the most recent bind of an id.

A local entry caches an object only if the current binding chose it, since a bind
resets the entry on every started core. A call therefore runs a function of the
chosen representative on the cached path and on the miss path alike.
-/

namespace EBBLib.Trans

variable (I : Image)

/-! ### Invalidation -/

section Invalidate

variable {I} {n myid : Nat} {k : Slot}

/-- The loop of the invalidation from its `j`-th iteration on: it resets the entries
that it still visits, and writes default words to local entries of the id only. -/
theorem invalidateFrom_spec (hn : n ≤ maxPics) (hc : myid < n) :
    ∀ (fuel j : Nat) (mem : Mem), 0 < fuel → j + fuel = n →
      ∃ mem', invalidateFrom I n myid (I.id k) fuel ((myid + j) % n) mem = some mem' ∧
        (∀ i, j ≤ i → i < n → Default I mem' (I.localEntry ((myid + i) % n) k)) ∧
        ∀ q, mem' q = mem q ∨
          (∃ c < n, q = I.localEntry c k ∧ mem' q = q + 8) ∨
          (∃ c < n, q = I.localEntry c k + 8 ∧ mem' q = I.defFT) := by
  intro fuel
  induction fuel with
  | zero => intro j mem pos; omega
  | succ fuel ih =>
      intro j mem _ count
      have visited : (myid + j) % n < n := Nat.mod_lt _ (by omega)
      have pic : (myid + j) % n < maxPics := by omega
      have written : ∀ q, ebbInitLTrans I mem (I.localEntry ((myid + j) % n) k) q = mem q ∨
          (∃ c < n, q = I.localEntry c k ∧
            ebbInitLTrans I mem (I.localEntry ((myid + j) % n) k) q = q + 8) ∨
          (∃ c < n, q = I.localEntry c k + 8 ∧
            ebbInitLTrans I mem (I.localEntry ((myid + j) % n) k) q = I.defFT) := by
        intro q
        rw [ebbInitLTrans_apply]
        by_cases table : q = I.localEntry ((myid + j) % n) k + 8
        · rw [if_pos table]
          exact .inr (.inr ⟨_, visited, table, rfl⟩)
        · rw [if_neg table]
          by_cases obj : q = I.localEntry ((myid + j) % n) k
          · rw [if_pos obj]
            exact .inr (.inl ⟨_, visited, obj, by rw [obj]⟩)
          · rw [if_neg obj]
            exact .inl rfl
      simp only [invalidateFrom, transTestCoreUsed, coreUsed_eq, if_true, I.id2rlt_id pic,
        getNextLpic_mod]
      by_cases last : j + 1 = n
      · have wrapped : (myid + (j + 1)) % n = myid := by rw [last, visited_round hc]
        refine ⟨_, if_pos wrapped, ?_, written⟩
        intro i lo hi
        obtain rfl : i = j := by omega
        exact default_ebbInitLTrans _
      · have ahead : (myid + (j + 1)) % n ≠ myid := visited_ne hc (by omega) (by omega)
        rw [if_neg ahead]
        obtain ⟨mem', run, reset, change⟩ := ih (j + 1) _ (by omega) (by omega)
        refine ⟨mem', run, ?_, ?_⟩
        · intro i lo hi
          rcases Nat.lt_or_eq_of_le lo with later | rfl
          · exact reset i later hi
          · -- Later iterations repeat the words of this entry or leave them alone.
            obtain ⟨obj, table⟩ : Default I _ (I.localEntry ((myid + j) % n) k) :=
              default_ebbInitLTrans mem
            constructor
            · rcases change (I.localEntry ((myid + j) % n) k) with same | ⟨_, _, _, same⟩ |
                ⟨c, _, clash, _⟩
              · rw [same, obj]
              · exact same
              · have := (I.localEntry_inj (i := 0) (by decide) (by decide)).mp clash
                omega
            · rcases change (I.localEntry ((myid + j) % n) k + 8) with same | ⟨c, _, clash, _⟩ |
                ⟨_, _, _, same⟩
              · rw [same, table]
              · have := (I.localEntry_inj (j := 0) (by decide) (by decide)).mp clash
                omega
              · exact same
        · intro q
          rcases change q with same | default
          · rw [same]
            exact written q
          · exact .inr default

/-- A bind returns. It stores the miss function and the argument, puts the local
entry of the id in its default state on every started core, and writes nothing else. -/
theorem transEBBIdBind_spec (hn : n ≤ maxPics) (hc : myid < n) (mf arg : Nat) (mem : Mem) :
    ∃ mem', transEBBIdBind I n myid (I.id k) mf arg mem = some mem' ∧
      mem' (I.globalEntry k) = mf ∧ mem' (I.globalEntry k + 8) = arg ∧
      (∀ c < n, Default I mem' (I.localEntry c k)) ∧
      ∀ q, q ≠ I.globalEntry k → q ≠ I.globalEntry k + 8 →
        (∀ c < n, q ≠ I.localEntry c k ∧ q ≠ I.localEntry c k + 8) → mem' q = mem q := by
  have start : (myid + 0) % n = myid := Nat.mod_eq_of_lt hc
  obtain ⟨mem', run, reset, change⟩ := invalidateFrom_spec (k := k) hn hc n 0
    (setWord (setWord mem (I.globalEntry k) 0 mf) (I.globalEntry k) 8 arg) (by omega) (by omega)
  rw [start] at run
  have outside : ∀ q, (∀ c < n, q ≠ I.localEntry c k ∧ q ≠ I.localEntry c k + 8) →
      mem' q = setWord (setWord mem (I.globalEntry k) 0 mf) (I.globalEntry k) 8 arg q := by
    intro q apart
    rcases change q with same | ⟨c, hc, clash, _⟩ | ⟨c, hc, clash, _⟩
    · exact same
    · exact absurd clash (apart c hc).1
    · exact absurd clash (apart c hc).2
  have globalApart : ∀ i, i < transSize → ∀ c < n, I.globalEntry k + i ≠ I.localEntry c k ∧
      I.globalEntry k + i ≠ I.localEntry c k + 8 := fun i hi c _ =>
    ⟨(I.localEntry_ne_globalEntry (i := 0) hi).symm, (I.localEntry_ne_globalEntry hi).symm⟩
  refine ⟨mem', ?_, ?_, ?_, ?_, ?_⟩
  · rw [transEBBIdBind, I.id2gt_id]
    exact run
  · rw [outside (I.globalEntry k) (globalApart 0 (by decide))]
    simp
  · rw [outside _ (globalApart 8 (by decide))]
    simp
  · intro c hcn
    obtain ⟨i, hi, visit⟩ := exists_visit hc hcn
    exact visit ▸ reset i (Nat.zero_le i) hi
  · intro q notMf notArg apart
    rw [outside q apart]
    simp [notMf, notArg]

end Invalidate

/-! ### The machine -/

structure State where
  mem : Mem
  binding : Slot → Option (Nat × Nat)

/-- An operation. `store` is any store of the program outside the tables. -/
inductive Op where
  | bind (core : Nat) (slot : Slot) (mf arg : Nat)
  | call (core : Nat) (slot : Slot) (fnum : Nat) (answer : Answer)
  | store (p v : Nat)

/-- The table `EBBDefFT` lies outside translation memory and holds the stubs. -/
def Wired (mem : Mem) : Prop :=
  ∀ i < maxFuncs, ¬ I.Contains (I.defFT + 8 * i) ∧ I.stub (mem (I.defFT + 8 * i)) = some i

/-- `fnum` is a method of the representative `rep`, which is no translation entry. -/
def Method (mem : Mem) (rep fnum : Nat) : Prop :=
  ¬ I.Contains rep ∧ ¬ I.Contains (mem rep + 8 * fnum) ∧ I.stub (funcOf mem rep fnum) = none

instance (mem : Mem) (rep fnum : Nat) : Decidable (Method I mem rep fnum) :=
  inferInstanceAs (Decidable (_ ∧ _))

/-- What the callers of the operations promise. Ids are bound before they are called. -/
def Enabled (n : Nat) (s : State) : Op → Prop
  | .bind core _ _ _ => core < n
  | .call core k fnum _ => core < n ∧ fnum < maxFuncs ∧
      ∃ b ∈ s.binding k, Method I s.mem (I.chooses b.1 b.2 (I.localEntry core k)) fnum
  | .store p _ => ¬ I.Contains p ∧ ¬ (I.defFT ≤ p ∧ p < I.defFT + 8 * maxFuncs)

instance (n : Nat) (s : State) : (op : Op) → Decidable (Enabled I n s op)
  | .bind .. => inferInstanceAs (Decidable (_ < _))
  | .call .. => inferInstanceAs (Decidable (_ ∧ _ ∧ ∃ b ∈ _, _))
  | .store .. => inferInstanceAs (Decidable (_ ∧ _))

/-- Perform an operation, with the outcome of a call. -/
def perform (n : Nat) (s : State) (op : Op) : Option (State × Option Outcome) :=
  if Enabled I n s op then
    match op with
    | .bind core k mf arg =>
        (transEBBIdBind I n core (I.id k) mf arg s.mem).map fun mem =>
          (⟨mem, Function.update s.binding k (some (mf, arg))⟩, none)
    | .call core k fnum answer =>
        let (out, mem) := ebbCall I core (I.id k) fnum answer s.mem
        some ({ s with mem }, some out)
    | .store p v => some ({ s with mem := setWord s.mem p 0 v }, none)
  else none

/-- Binds and calls on `n` started cores, each of which has run `trans_init`. -/
def machine (n : Nat) : Machine State Op where
  init s := 0 < n ∧ n ≤ maxPics ∧ s.binding = (fun _ => none) ∧
    ∃ mem, Wired I mem ∧ s.mem = startCores I n mem
  step s op := (perform I n s op).map Prod.fst

/-- Dispatch is transparent in the step from `s` to `t` with outcome `out`. -/
structure Transparent (s : State) (op : Op) (out : Option Outcome) (t : State) : Prop where
  /-- A call runs the function of the chosen representative, unless the local entry
  is in its default state and the miss function fails. Then the call returns the
  code and the local entry stays as it is. -/
  call : ∀ core k fnum answer mf arg, op = .call core k fnum answer →
    s.binding k = some (mf, arg) →
    let lt := I.localEntry core k
    let rep := I.chooses mf arg lt
    if Default I s.mem lt ∧ answer.rc < 0 then
      out = some (.returned answer.rc) ∧ Default I t.mem lt
    else out = some (.ran (funcOf s.mem rep fnum) rep)
  /-- Binds and calls leave the entries of other ids alone. -/
  frame : ∀ core k mf arg fnum answer,
    op = .bind core k mf arg ∨ op = .call core k fnum answer →
    ∀ l ≠ k, ∀ i < transSize, t.mem (I.globalEntry l + i) = s.mem (I.globalEntry l + i) ∧
      ∀ c < maxPics, t.mem (I.localEntry c l + i) = s.mem (I.localEntry c l + i)

/-- The entries in a reachable state. -/
structure Coherent (n : Nat) (s : State) : Prop where
  cores : 0 < n ∧ n ≤ maxPics
  wired : Wired I s.mem
  bound : ∀ k b, s.binding k = some b →
    mfOf s.mem (I.globalEntry k) = b.1 ∧ argOf s.mem (I.globalEntry k) = b.2
  table : ∀ c < n, ∀ k, s.mem (I.localEntry c k + 8) = I.defFT
  obj : ∀ c < n, ∀ k, objOf s.mem (I.localEntry c k) = I.localEntry c k + 8 ∨
    ∃ b, s.binding k = some b ∧
      objOf s.mem (I.localEntry c k) = I.chooses b.1 b.2 (I.localEntry c k)

section Calls

variable {I} {n core fnum : Nat} {k : Slot} {mem : Mem}

/-- A store that misses the default table leaves it wired. -/
theorem Wired.frame {mem' : Mem} (wired : Wired I mem)
    (agree : ∀ q, ¬ I.Contains q → mem' q = mem q) : Wired I mem' := by
  intro i hi
  obtain ⟨outside, stub⟩ := wired i hi
  exact ⟨outside, by rw [agree _ outside, stub]⟩

/-- A call on an entry that caches a representative runs its function. -/
theorem ebbCall_cached (hc : core < maxPics) {rep : Nat} (answer : Answer)
    (cached : objOf mem (I.localEntry core k) = rep) (method : Method I mem rep fnum) :
    ebbCall I core (I.id k) fnum answer mem = (.ran (funcOf mem rep fnum) rep, mem) := by
  obtain ⟨_, _, real⟩ := method
  simp only [ebbCall, I.id2lt_id hc, cached, real]

/-- A call on a default entry runs the miss function of the id's global entry. -/
theorem ebbCall_default (hc : core < maxPics) (hf : fnum < maxFuncs) (answer : Answer)
    (wired : Wired I mem) (default : Default I mem (I.localEntry core k)) :
    ebbCall I core (I.id k) fnum answer mem =
      if EBBRC.success answer.rc then
        let rep := I.chooses (mfOf mem (I.globalEntry k)) (argOf mem (I.globalEntry k))
          (I.localEntry core k)
        let mem' := if answer.install then ebbCacheObj I core mem (I.localEntry core k) rep
          else mem
        (.ran (funcOf mem' rep fnum) rep, mem')
      else (.returned answer.rc, mem) := by
  obtain ⟨obj, table⟩ := default
  have stub := (wired fnum hf).2
  have entry : Word64.sub (I.localEntry core k + 8) 8 = I.localEntry core k := by
    have inside := (I.contains_localEntry (k := k) (i := 8) hc (by decide)).2
    have fits := I.fits
    rw [Word64.sub_of_le (by omega) (by omega)]
    omega
  simp only [ebbCall, I.id2lt_id hc, objOf, obj, funcOf, table, stub, genericDefaultFunc, entry,
    I.lt2gt_localEntry k hc, missFunc]
  by_cases success : EBBRC.success answer.rc
  · simp only [success, if_true]
  · simp [success]

/-- The words that `EBBCacheObj` leaves alone. -/
theorem ebbCacheObj_of_ne (hc : core < maxPics) {obj q : Nat}
    (notGlobal : q ≠ I.globalEntry k + 24) (notLocal : q ≠ I.localEntry core k) :
    ebbCacheObj I core mem (I.localEntry core k) obj q = mem q := by
  rw [ebbCacheObj_apply hc, if_neg notGlobal, if_neg notLocal]

/-- `EBBCacheObj` writes to translation memory only. -/
theorem ebbCacheObj_outside (hc : core < maxPics) {obj q : Nat} (outside : ¬ I.Contains q) :
    ebbCacheObj I core mem (I.localEntry core k) obj q = mem q := by
  apply ebbCacheObj_of_ne hc
  · rintro rfl
    exact outside (I.contains_globalEntry (by decide))
  · rintro rfl
    exact outside (I.contains_localEntry (i := 0) hc (by decide))

/-- `EBBCacheObj` leaves the entries of other ids alone. -/
theorem ebbCacheObj_frame (mem : Mem) (obj : Nat) (hc : core < maxPics) {i : Nat} {l : Slot}
    (other : l ≠ k)
    (hi : i < transSize) :
    ebbCacheObj I core mem (I.localEntry core k) obj (I.globalEntry l + i) =
        mem (I.globalEntry l + i) ∧
      ∀ c, ebbCacheObj I core mem (I.localEntry core k) obj (I.localEntry c l + i) =
        mem (I.localEntry c l + i) := by
  constructor
  · apply ebbCacheObj_of_ne hc
    · intro clash
      exact other ((I.globalEntry_inj hi (by decide)).mp clash).1
    · exact (I.localEntry_ne_globalEntry (i := 0) hi).symm
  · intro c
    apply ebbCacheObj_of_ne hc
    · exact I.localEntry_ne_globalEntry (by decide)
    · intro clash
      exact other ((I.localEntry_inj (j := 0) hi (by decide)).mp clash).2.1

end Calls

namespace Coherent

variable {I} {n core fnum : Nat} {k : Slot} {s : State}

/-- A call runs the chosen representative's function, and either leaves memory alone
or installs the representative; or its miss function fails and nothing changes. -/
theorem call (r : Coherent I n s) (hc : core < n) (hf : fnum < maxFuncs) (answer : Answer)
    {b : Nat × Nat} (bound : s.binding k = some b) {rep : Nat}
    (chosen : rep = I.chooses b.1 b.2 (I.localEntry core k)) (method : Method I s.mem rep fnum) :
    (Default I s.mem (I.localEntry core k) ∧ answer.rc < 0 ∧
      ebbCall I core (I.id k) fnum answer s.mem = (.returned answer.rc, s.mem)) ∨
    (¬ (Default I s.mem (I.localEntry core k) ∧ answer.rc < 0) ∧
      ∃ mem, ebbCall I core (I.id k) fnum answer s.mem = (.ran (funcOf s.mem rep fnum) rep, mem) ∧
        (mem = s.mem ∨ mem = ebbCacheObj I core s.mem (I.localEntry core k) rep)) := by
  have pic : core < maxPics := Nat.lt_of_lt_of_le hc r.cores.2
  obtain ⟨mf, arg⟩ := r.bound k b bound
  by_cases default : Default I s.mem (I.localEntry core k)
  · have run := ebbCall_default pic hf answer r.wired default
    rw [mf, arg, ← chosen] at run
    by_cases fails : answer.rc < 0
    · have notSuccess : ¬ EBBRC.success answer.rc = true := by
        simpa [EBBRC.success] using fails
      rw [if_neg notSuccess] at run
      exact .inl ⟨default, fails, run⟩
    · have success : EBBRC.success answer.rc = true := by
        simpa [EBBRC.success] using fails
      rw [if_pos success] at run
      -- The representative and its table are not touched by an installation.
      have kept : funcOf (ebbCacheObj I core s.mem (I.localEntry core k) rep) rep fnum =
          funcOf s.mem rep fnum := by
        rw [funcOf, ebbCacheObj_outside pic method.1, ebbCacheObj_outside pic method.2.1, funcOf]
      refine .inr ⟨fun both => fails both.2, ?_⟩
      cases install : answer.install with
      | false => exact ⟨_, by simpa [install] using run, .inl rfl⟩
      | true => exact ⟨_, by simpa [install, kept] using run, .inr rfl⟩
  · have cached : objOf s.mem (I.localEntry core k) = rep := by
      rcases r.obj core hc k with self | ⟨b', bound', obj⟩
      · exact absurd ⟨self, r.table core hc k⟩ default
      · obtain rfl : b = b' := by simpa [bound] using bound'
        rw [obj, chosen]
    exact .inr ⟨fun both => default both.1, _, ebbCall_cached pic answer cached method, .inl rfl⟩

/-- Installing the chosen representative keeps the tables coherent. -/
theorem install (r : Coherent I n s) (hc : core < n) {b : Nat × Nat}
    (bound : s.binding k = some b) :
    Coherent I n ⟨ebbCacheObj I core s.mem (I.localEntry core k)
      (I.chooses b.1 b.2 (I.localEntry core k)), s.binding⟩ := by
  have pic : core < maxPics := Nat.lt_of_lt_of_le hc r.cores.2
  refine ⟨r.cores, r.wired.frame fun q => ebbCacheObj_outside pic, ?_, ?_, ?_⟩ <;> simp only
  · intro l b' bound'
    obtain ⟨mf, arg⟩ := r.bound l b' bound'
    have argApart : I.globalEntry l + 8 ≠ I.globalEntry k + 24 := by
      intro clash
      have := (I.globalEntry_inj (by decide) (by decide)).mp clash
      omega
    have mfApart : I.globalEntry l ≠ I.globalEntry k + 24 := by
      intro clash
      have := (I.globalEntry_inj (i := 0) (by decide) (by decide)).mp clash
      omega
    rw [mfOf, ebbCacheObj_of_ne pic mfApart (I.globalEntry_ne_localEntry), argOf,
      ebbCacheObj_of_ne pic argApart (I.globalEntry_word_ne_localEntry (by decide))]
    exact ⟨mf, arg⟩
  · intro c hcn l
    have apart : I.localEntry c l + 8 ≠ I.localEntry core k := by
      intro clash
      have := (I.localEntry_inj (j := 0) (by decide) (by decide)).mp clash
      omega
    rw [ebbCacheObj_of_ne pic (I.localEntry_ne_globalEntry (by decide)) apart]
    exact r.table c hcn l
  · intro c hcn l
    by_cases here : I.localEntry c l = I.localEntry core k
    · obtain ⟨rfl, rfl, _⟩ :=
        (I.localEntry_inj (i := 0) (j := 0) (by decide) (by decide)).mp here
      refine .inr ⟨b, bound, ?_⟩
      rw [objOf, ebbCacheObj_apply pic, if_neg (I.localEntry_ne_globalEntry_word (by decide)),
        if_pos rfl]
    · rw [objOf, ebbCacheObj_of_ne pic (I.localEntry_ne_globalEntry_word (by decide)) here]
      exact r.obj c hcn l

/-- A bind makes the entries of its id default on every core, and keeps the others. -/
theorem bind (r : Coherent I n s) (hc : core < n) (mf arg : Nat) :
    ∃ mem, transEBBIdBind I n core (I.id k) mf arg s.mem = some mem ∧
      Coherent I n ⟨mem, Function.update s.binding k (some (mf, arg))⟩ ∧
      ∀ l ≠ k, ∀ i < transSize, mem (I.globalEntry l + i) = s.mem (I.globalEntry l + i) ∧
        ∀ c, mem (I.localEntry c l + i) = s.mem (I.localEntry c l + i) := by
  obtain ⟨mem, run, newMf, newArg, reset, frame⟩ :=
    transEBBIdBind_spec (I := I) (k := k) r.cores.2 hc mf arg s.mem
  have globalFrame : ∀ l ≠ k, ∀ i < transSize,
      mem (I.globalEntry l + i) = s.mem (I.globalEntry l + i) := by
    intro l other i hi
    refine frame _ ?_ ?_ fun c _ =>
      ⟨(I.localEntry_ne_globalEntry (i := 0) hi).symm, (I.localEntry_ne_globalEntry hi).symm⟩
    · intro clash
      exact other ((I.globalEntry_inj (j := 0) hi (by decide)).mp clash).1
    · intro clash
      exact other ((I.globalEntry_inj hi (by decide)).mp clash).1
  have localFrame : ∀ l ≠ k, ∀ i < transSize, ∀ c,
      mem (I.localEntry c l + i) = s.mem (I.localEntry c l + i) := by
    intro l other i hi c
    refine frame _ (I.localEntry_ne_globalEntry (j := 0) (by decide))
      (I.localEntry_ne_globalEntry (by decide)) fun d _ => ⟨?_, ?_⟩
    · intro clash
      exact other ((I.localEntry_inj (j := 0) hi (by decide)).mp clash).2.1
    · intro clash
      exact other ((I.localEntry_inj hi (by decide)).mp clash).2.1
  refine ⟨mem, run, ⟨r.cores, ?_, ?_, ?_, ?_⟩, fun l other i hi =>
    ⟨globalFrame l other i hi, localFrame l other i hi⟩⟩
  · refine r.wired.frame fun q outside => frame q ?_ ?_ fun c hcn => ⟨?_, ?_⟩
    · rintro rfl
      exact outside (I.contains_globalEntry (i := 0) (by decide))
    · rintro rfl
      exact outside (I.contains_globalEntry (by decide))
    · rintro rfl
      exact outside (I.contains_localEntry (i := 0) (Nat.lt_of_lt_of_le hcn r.cores.2) (by decide))
    · rintro rfl
      exact outside (I.contains_localEntry (Nat.lt_of_lt_of_le hcn r.cores.2) (by decide))
  · intro l b bound
    by_cases same : l = k
    · subst same
      obtain rfl : (mf, arg) = b := by simpa using bound
      exact ⟨newMf, newArg⟩
    · have before := r.bound l b (by simpa [Function.update_apply, same] using bound)
      exact ⟨(globalFrame l same 0 (by decide)).trans before.1,
        (globalFrame l same 8 (by decide)).trans before.2⟩
  · intro c hcn l
    by_cases same : l = k
    · rw [same]
      exact (reset c hcn).2
    · exact (localFrame l same 8 (by decide) c).trans (r.table c hcn l)
  · intro c hcn l
    by_cases same : l = k
    · rw [same]
      exact .inl (reset c hcn).1
    · have here : mem (I.localEntry c l) = s.mem (I.localEntry c l) :=
        localFrame l same 0 (by decide) c
      simpa only [objOf, here, Function.update_apply, same, if_false] using r.obj c hcn l

/-- A store outside translation memory and the default table. -/
theorem store (r : Coherent I n s) {p : Nat} (outside : ¬ I.Contains p)
    (notTable : ¬ (I.defFT ≤ p ∧ p < I.defFT + 8 * maxFuncs)) (v : Nat) :
    Coherent I n ⟨setWord s.mem p 0 v, s.binding⟩ := by
  have kept : ∀ q, I.Contains q → setWord s.mem p 0 v q = s.mem q := by
    intro q inside
    rw [setWord_apply, if_neg]
    rintro rfl
    exact outside inside
  refine ⟨r.cores, ?_, ?_, ?_, ?_⟩ <;> simp only
  · intro i hi
    obtain ⟨apart, stub⟩ := r.wired i hi
    refine ⟨apart, ?_⟩
    rw [setWord_apply, if_neg (by omega), stub]
  · intro l b bound
    rw [mfOf, kept _ I.contains_globalEntry_start, argOf,
      kept _ (I.contains_globalEntry (by decide))]
    exact r.bound l b bound
  · intro c hc l
    have pic := Nat.lt_of_lt_of_le hc r.cores.2
    rw [kept _ (I.contains_localEntry pic (by decide))]
    exact r.table c hc l
  · intro c hc l
    have pic := Nat.lt_of_lt_of_le hc r.cores.2
    rw [objOf, kept _ (I.contains_localEntry_start pic)]
    exact r.obj c hc l

end Coherent

/-- After `trans_init` on every core all local entries are in their default state. -/
theorem startCores_spec {I : Image} {n : Nat} (hn : n ≤ maxPics) (mem : Mem) :
    (∀ c < n, ∀ k, Default I (startCores I n mem) (I.localEntry c k)) ∧
      ∀ q, ¬ I.Contains q → startCores I n mem q = mem q := by
  induction n with
  | zero => exact ⟨by simp, fun q _ => rfl⟩
  | succ n ih =>
      obtain ⟨entries, frame⟩ := ih (by omega)
      have pic : n < maxPics := by omega
      rw [startCores]
      generalize startCores I n mem = before at entries frame ⊢
      obtain ⟨own, others⟩ := transInit_spec (I := I) before pic
      constructor
      · intro c hc k
        by_cases last : c = n
        · rw [last]
          exact own k
        · have kept : ∀ i < transSize,
              transInit I n before (I.localEntry c k + i) = before (I.localEntry c k + i) := by
            intro i hi
            refine others _ ?_ fun l j hj clash => ?_
            · simp only [TransMem.localEntry, tblSize]
              omega
            · exact last ((I.localEntry_inj hi hj).mp clash).1
          have kept₀ := kept 0 (by decide)
          rw [Nat.add_zero] at kept₀
          rw [Default, kept₀, kept 8 (by decide)]
          exact entries c (by omega) k
      · intro q outside
        refine (others q ?_ ?_).trans (frame q outside)
        · simp only [TransMem.Contains, tblSize, maxPics] at outside ⊢
          omega
        · rintro k i hi rfl
          exact outside (I.contains_localEntry pic hi)

theorem step_bind {I : Image} {n core mf arg : Nat} {s : State} {k : Slot} {mem : Mem}
    (hc : core < n) (run : transEBBIdBind I n core (I.id k) mf arg s.mem = some mem) :
    (machine I n).step s (.bind core k mf arg) =
      some ⟨mem, Function.update s.binding k (some (mf, arg))⟩ := by
  have enabled : Enabled I n s (.bind core k mf arg) := hc
  simp only [machine, perform, if_pos enabled, run, Option.map_some]

theorem exists_init {I : Image} {n : Nat} {mem : Mem} (pos : 0 < n) (hn : n ≤ maxPics)
    (wired : Wired I mem) :
    ∃ s, (machine I n).init s ∧ ∀ q, ¬ I.Contains q → s.mem q = mem q :=
  ⟨⟨startCores I n mem, fun _ => none⟩, ⟨pos, hn, rfl, mem, wired, rfl⟩,
    (startCores_spec hn mem).2⟩

theorem coherent_init {I : Image} {n : Nat} {s : State} (start : (machine I n).init s) :
    Coherent I n s := by
  obtain ⟨pos, hn, unbound, mem, wired, run⟩ := start
  obtain ⟨entries, frame⟩ := startCores_spec (I := I) hn mem
  refine ⟨⟨pos, hn⟩, ?_, ?_, ?_, ?_⟩
  · rw [run]
    exact wired.frame frame
  · simp [unbound]
  · intro c hc k
    rw [run]
    exact (entries c hc k).2
  · intro c hc k
    rw [run]
    exact .inl (entries c hc k).1

/-- The step rule: an enabled operation completes, transparently, and keeps the
tables coherent. -/
theorem Coherent.perform {I : Image} {n : Nat} {s : State} (r : Coherent I n s) {op : Op}
    (enabled : Enabled I n s op) :
    ∃ t out, perform I n s op = some (t, out) ∧ Coherent I n t ∧ Transparent I s op out t := by
  cases op with
  | bind core k mf arg =>
      obtain ⟨mem, run, kept, frame⟩ := r.bind (k := k) enabled mf arg
      refine ⟨_, _, by rw [Trans.perform, if_pos enabled, run]; rfl, kept, ?_, ?_⟩
      · intro core k fnum answer mf arg isCall
        cases isCall
      · intro core' k' mf' arg' fnum answer which l other i hi
        obtain ⟨rfl, rfl, rfl, rfl⟩ : core = core' ∧ k = k' ∧ mf = mf' ∧ arg = arg' := by
          simpa using which
        exact ⟨(frame l other i hi).1, fun c _ => (frame l other i hi).2 c⟩
  | call core k fnum answer =>
      have promised := enabled
      obtain ⟨hc, hf, b, bound, method⟩ := promised
      have pic := Nat.lt_of_lt_of_le hc r.cores.2
      refine ⟨_, _, by rw [Trans.perform, if_pos enabled], ?_, ?_, ?_⟩
      · rcases r.call hc hf answer bound rfl method with ⟨_, _, run⟩ | ⟨_, mem, run, same | new⟩
        · rw [run]
          exact r
        · rw [run, same]
          exact r
        · rw [run, new]
          exact r.install hc bound
      · intro core' k' fnum' answer' mf arg same bound'
        obtain ⟨rfl, rfl, rfl, rfl⟩ : core = core' ∧ k = k' ∧ fnum = fnum' ∧ answer = answer' := by
          simpa using same
        obtain rfl : b = (mf, arg) := by
          rw [bound'] at bound
          exact (Option.some.inj bound).symm
        rcases r.call hc hf answer bound rfl method with ⟨default, fails, run⟩ | ⟨ran, mem, run, _⟩
        · rw [if_pos ⟨default, fails⟩, run]
          exact ⟨rfl, default⟩
        · rw [if_neg ran, run]
      · intro core' k' mf' arg' fnum' answer' which l other i hi
        obtain ⟨rfl, rfl, rfl, rfl⟩ : core = core' ∧ k = k' ∧ fnum = fnum' ∧ answer = answer' := by
          simpa using which
        have frame := ebbCacheObj_frame (I := I) s.mem
          (I.chooses b.1 b.2 (I.localEntry core k)) pic other hi
        rcases r.call hc hf answer bound rfl method with ⟨_, _, run⟩ | ⟨_, mem, run, same | new⟩
        · rw [run]
          exact ⟨rfl, fun c _ => rfl⟩
        · rw [run, same]
          exact ⟨rfl, fun c _ => rfl⟩
        · rw [run, new]
          exact ⟨frame.1, fun c _ => frame.2 c⟩
  | store p v =>
      refine ⟨_, _, by rw [Trans.perform, if_pos enabled], r.store enabled.1 enabled.2 v, ?_, ?_⟩
      · intro core k fnum answer mf arg isCall
        cases isCall
      · intro core k mf arg fnum answer which
        rcases which with isBind | isCall
        · cases isBind
        · cases isCall

theorem coherent_of_reach {I : Image} {n : Nat} {s : State} (reached : (machine I n).Reach s) :
    Coherent I n s := by
  refine reached.invariant (I := Coherent I n) (fun _ => coherent_init) ?_
  intro s op t _ r _ moved
  by_cases enabled : Enabled I n s op
  · obtain ⟨t', out, run, kept, _⟩ := r.perform enabled
    simp only [machine, run, Option.map_some, Option.some.injEq] at moved
    exact moved ▸ kept
  · simp [machine, Trans.perform, enabled] at moved

/-- In every reachable state every enabled operation completes and is transparent. -/
theorem perform_transparent (I : Image) (n : Nat) {s : State} (reached : (machine I n).Reach s)
    {op : Op} (enabled : Enabled I n s op) :
    ∃ t out, perform I n s op = some (t, out) ∧ Transparent I s op out t := by
  obtain ⟨t, out, run, _, transparent⟩ := (coherent_of_reach reached).perform enabled
  exact ⟨t, out, run, transparent⟩

/-- An image whose only representative has methods at the address `2 ^ 20`. -/
def sampleImage : Image where
  base := 2 ^ 30
  fits := by decide
  defFT := 2 ^ 40
  stub func := if func < maxFuncs then some func else none
  chooses _ _ _ := 2 ^ 41

/-- The memory of the sample image before any core has started. -/
def sampleMem : Mem := fun p =>
  if 2 ^ 40 ≤ p ∧ p < 2 ^ 40 + 8 * maxFuncs then (p - 2 ^ 40) / 8 else 2 ^ 20

theorem wired_sampleMem : Wired sampleImage sampleMem := by
  intro i hi
  simp only [maxFuncs] at hi
  constructor
  · simp only [TransMem.Contains, sampleImage, maxPics, tblSize]
    omega
  · have word : sampleMem (2 ^ 40 + 8 * i) = i := by
      rw [sampleMem, if_pos (by simp only [maxFuncs]; omega)]
      omega
    change (if sampleMem (2 ^ 40 + 8 * i) < 256 then some (sampleMem (2 ^ 40 + 8 * i))
      else none) = _
    rw [word, if_pos hi]

/-- The slot of the sample id. -/
def sampleSlot : Slot := ⟨0, by decide⟩

/-- A bind on core 0 followed by the first call on core 1. -/
theorem perform_transparent_sample :
    ∃ s t out, (machine sampleImage 2).Reach s ∧ s.binding sampleSlot = some (7, 9) ∧
      perform sampleImage 2 s (.call 1 sampleSlot 3 ⟨0, true⟩) = some (t, out) ∧
      Transparent sampleImage s (.call 1 sampleSlot 3 ⟨0, true⟩) out t := by
  obtain ⟨start, init, kept⟩ := exists_init (I := sampleImage) (n := 2) (by decide) (by decide)
    wired_sampleMem
  have core : 0 < 2 := by decide
  obtain ⟨mem, run, _, _, _, frame⟩ := transEBBIdBind_spec (I := sampleImage) (k := sampleSlot)
    (by decide) core 7 9 start.mem
  have outside : ∀ q, ¬ sampleImage.Contains q → mem q = sampleMem q := by
    intro q out
    refine (frame q ?_ ?_ fun c hc => ⟨?_, ?_⟩).trans (kept q out)
    · rintro rfl
      exact out sampleImage.contains_globalEntry_start
    · rintro rfl
      exact out (sampleImage.contains_globalEntry (by decide))
    · rintro rfl
      exact out (sampleImage.contains_localEntry_start (Nat.lt_of_lt_of_le hc (by decide)))
    · rintro rfl
      exact out (sampleImage.contains_localEntry (Nat.lt_of_lt_of_le hc (by decide)) (by decide))
  let bound : State := ⟨mem, Function.update start.binding sampleSlot (some (7, 9))⟩
  have reached : (machine sampleImage 2).Reach bound :=
    .step (.init init) trivial (step_bind (by decide) run)
  have rep : mem (2 ^ 41) = 2 ^ 20 := by
    rw [outside (2 ^ 41) (by decide), sampleMem, if_neg (by decide)]
  have func : funcOf mem (2 ^ 41) 3 = 2 ^ 20 := by
    rw [funcOf, rep, outside _ (by decide), sampleMem, if_neg (by decide)]
  have method : Method sampleImage mem (2 ^ 41) 3 := by
    refine ⟨by decide, ?_, ?_⟩
    · rw [rep]
      decide
    · rw [func]
      decide
  have enabled : Enabled sampleImage 2 bound (.call 1 sampleSlot 3 ⟨0, true⟩) :=
    ⟨by decide, by decide, (7, 9), by simp [bound], method⟩
  obtain ⟨t, out, performed, transparent⟩ := perform_transparent sampleImage 2 reached enabled
  exact ⟨bound, t, out, reached, by simp [bound], performed, transparent⟩

end EBBLib.Trans
