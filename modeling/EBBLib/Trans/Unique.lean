import EBBLib.Trans.Alloc

/-!
# Distinct ids

Cores start, allocate ids, bind them, miss on them and cache representatives at the same
time, and no lock protects the tables. Every access to a word of translation memory is a
step of its own here. Ids are distinct all the same, because each core allocates in its
own portion of the global table, and nothing else writes the third word of an entry.
-/

namespace EBBLib.Trans.Unique

/-- Where a core is. -/
inductive Pc where
  /-- Before `trans_init`. -/
  | down
  /-- In `bzero`, before word `j` of the core's portion. -/
  | zero (j : Nat)
  /-- In `initLTable`, before the stores to entry `i`. -/
  | table (i : Nat)
  | tableFt (i : Nat)
  | idle
  /-- In `TransEBBIdAlloc`, before the test of entry `i`. -/
  | scan (i : Nat)
  | mark (i : Nat)
  /-- In `TransEBBIdBind`, before its first store. -/
  | bindMf (id mf arg : Nat)
  | bindArg (id arg : Nat)
  /-- In `TransEBBIdInvalidateCaches`, before the test of core `picId`. -/
  | test (id picId : Nat)
  | reset (id picId : Nat)
  | resetFt (id picId : Nat)
  | next (id picId : Nat)
  /-- On the miss path, before the loads of the miss function and its argument. -/
  | missMf (id : Nat)
  | missArg (id mf : Nat)
  | missFunc (id mf arg : Nat)
  /-- In `EBBCacheObj` for a local entry. -/
  | cacheObj (lt obj : Nat)
  | loadBv (lt : Nat)
  | storeBv (lt bv : Nat)
deriving DecidableEq, Repr

/-- Memory, the cores, and the results of the calls of `TransEBBIdAlloc` with the cores
that made them. -/
structure State where
  mem : Mem
  pc : Nat → Pc
  returned : List (Nat × Nat)

inductive Action where
  /-- The core moves on; `numlpics` is what it reads if it asks for the number of cores. -/
  | move (core numlpics : Nat)
  | start (core : Nat)
  | alloc (core : Nat)
  | bind (core id mf arg : Nat)
  | miss (core id : Nat)
  /-- The miss function returns, and may install an object first. -/
  | answer (core : Nat) (obj : Option Nat)
  | cache (core id obj : Nat)
deriving DecidableEq, Repr

namespace State

variable (s : State)

def goto (c : Nat) (pc : Pc) : State := { s with pc := Function.update s.pc c pc }

def store (p i v : Nat) : State := { s with mem := setWord s.mem p i v }

/-- `TransEBBIdAlloc` returns `id` on core `c`. -/
def ret (c id : Nat) : State := { s.goto c .idle with returned := (c, id) :: s.returned }

/-- The id comes from a call of `TransEBBIdAlloc`. -/
def Obtained (id : Nat) : Prop := id ≠ 0 ∧ id ∈ s.returned.map Prod.snd

instance (id : Nat) : Decidable (s.Obtained id) := inferInstanceAs (Decidable (_ ∧ _))

/-- The next step of core `c`. -/
def move (I : Image) (c numlpics : Nat) : Pc → Option State
  | .down | .idle | .missFunc .. => none
  | .zero j =>
      some (if 8 * j < mygmemSize then (s.store (mygmem I c) (8 * j) 0).goto c (.zero (j + 1))
        else s.goto c (.table 0))
  | .table i =>
      let lt := I.lmemr c + transSize * i
      some (if i < numTrans then (s.store lt 0 (lt + 8)).goto c (.tableFt i) else s.goto c .idle)
  | .tableFt i => some ((s.store (I.lmemr c + transSize * i) 8 I.defFT).goto c (.table (i + 1)))
  | .scan i =>
      some (if i < myNumGTrans then
          if s.mem (mygmem I c + transSize * i + 16) ≠ allocated then s.goto c (.mark i)
          else s.goto c (.scan (i + 1))
        else s.ret c 0)
  | .mark i =>
      let p := mygmem I c + transSize * i
      some ((s.store p 16 allocated).ret c (I.gt2id p))
  | .bindMf id mf arg => some ((s.store (I.id2gt id) 0 mf).goto c (.bindArg id arg))
  | .bindArg id arg => some ((s.store (I.id2gt id) 8 arg).goto c (.test id c))
  | .test id picId =>
      some (s.goto c (if transTestCoreUsed s.mem (I.id2gt id) picId then .reset id picId
        else .next id picId))
  | .reset id picId =>
      let lt := I.id2rlt picId id
      some ((s.store lt 0 (lt + 8)).goto c (.resetFt id picId))
  | .resetFt id picId => some ((s.store (I.id2rlt picId id) 8 I.defFT).goto c (.next id picId))
  | .next id picId =>
      if 0 < numlpics ∧ numlpics ≤ maxPics then
        let picId := getNextLpic numlpics picId
        some (s.goto c (if picId = c then .idle else .test id picId))
      else none
  | .missMf id => some (s.goto c (.missArg id (mfOf s.mem (I.lt2gt c (I.id2lt c id)))))
  | .missArg id mf => some (s.goto c (.missFunc id mf (argOf s.mem (I.lt2gt c (I.id2lt c id)))))
  | .cacheObj lt obj => some ((s.store lt 0 obj).goto c (.loadBv lt))
  | .loadBv lt => some (s.goto c (.storeBv lt (s.mem (I.lt2gt c lt + 24))))
  | .storeBv lt bv => some ((s.store (I.lt2gt c lt) 24 (bv ||| 2 ^ c)).goto c .idle)

def step (I : Image) : Action → Option State
  | .move c numlpics => s.move I c numlpics (s.pc c)
  | .start c => if c < maxPics ∧ s.pc c = .down then some (s.goto c (.zero 0)) else none
  | .alloc c => if s.pc c = .idle then some (s.goto c (.scan 0)) else none
  | .bind c id mf arg =>
      if s.pc c = .idle ∧ s.Obtained id then some (s.goto c (.bindMf id mf arg)) else none
  | .miss c id => if s.pc c = .idle ∧ s.Obtained id then some (s.goto c (.missMf id)) else none
  | .answer c obj =>
      match s.pc c with
      | .missFunc id _ _ =>
          some (s.goto c (match obj with
            | some obj => .cacheObj (I.id2lt c id) obj
            | none => .idle))
      | _ => none
  | .cache c id obj =>
      if s.pc c = .idle ∧ s.Obtained id then some (s.goto c (.cacheObj (I.id2lt c id) obj))
      else none

end State

/-- Any memory, and no core has started. -/
def machine (I : Image) : Machine State Action where
  init s := (∀ c, s.pc c = .down) ∧ s.returned = []
  step s := s.step I

/-- What the ids returned so far should satisfy. -/
structure Distinct (I : Image) (s : State) : Prop where
  distinct : ((s.returned.map Prod.snd).filter (· ≠ 0)).Nodup
  /-- The entry of an id lies in the portion of the core that allocated it. -/
  inside : ∀ c id, (c, id) ∈ s.returned → id ≠ 0 →
    mygmemSize * c ≤ I.id2gt id - I.gmem ∧ I.id2gt id - I.gmem + transSize ≤ mygmemSize * (c + 1) ∧
      I.gmem ≤ I.id2gt id ∧ transSize ∣ I.id2gt id - I.gmem
  /-- An allocated entry is not allocatable. -/
  kept : ∀ c id, (c, id) ∈ s.returned → id ≠ 0 → s.mem (I.id2gt id + 16) = allocated
  /-- A call returns null exactly when all entries of the portion are allocated. -/
  null : ∀ a t c id, s.step I a = some t → t.returned = (c, id) :: s.returned →
    (id = 0 ↔ ∀ k, home k = c → (c, I.id k) ∈ s.returned)

/-! ### The invariant -/

section

variable (I : Image)

/-- The third word of an entry. -/
def markOf (mem : Mem) (k : Slot) : Nat := mem (I.globalEntry k + 16)

/-- The marked entries of a core's portion are those whose ids it has allocated. -/
def Accounts (mem : Mem) (returned : List (Nat × Nat)) (c : Nat) : Prop :=
  ∀ k, home k = c → (Marked I mem k ↔ (c, I.id k) ∈ returned)

/-- What holds of a core's portion when it is somewhere. -/
def Pc.Portion (mem : Mem) (returned : List (Nat × Nat)) (c : Nat) : Pc → Prop
  | down => ∀ id, (c, id) ∉ returned
  | zero j => c < maxPics ∧ (∀ id, (c, id) ∉ returned) ∧
      ∀ k, home k = c → transSize * place k + 16 < 8 * j → markOf I mem k = 0
  | scan i => c < maxPics ∧ Accounts I mem returned c ∧
      ∀ k, home k = c → place k < i → Marked I mem k
  | mark i => c < maxPics ∧ Accounts I mem returned c ∧
      ∃ k, home k = c ∧ place k = i ∧ ¬ Marked I mem k
  | _ => c < maxPics ∧ Accounts I mem returned c

/-- The entries that a core works on. -/
def Pc.Works (c : Nat) : Pc → Prop
  | tableFt i => i < numTrans
  | bindMf id _ _ | bindArg id _ | missMf id | missArg id _ | missFunc id _ _ => ∃ k, id = I.id k
  | test id picId | reset id picId | resetFt id picId | next id picId =>
      picId < maxPics ∧ ∃ k, id = I.id k
  | cacheObj lt _ | loadBv lt | storeBv lt _ => ∃ k, lt = I.localEntry c k
  | _ => True

structure Inv (s : State) : Prop where
  entry : ∀ c id, (c, id) ∈ s.returned → id ≠ 0 → ∃ k, home k = c ∧ id = I.id k
  distinct : ((s.returned.map Prod.snd).filter (· ≠ 0)).Nodup
  portion : ∀ c, (s.pc c).Portion I s.mem s.returned c
  works : ∀ c, (s.pc c).Works I c

end

section

variable {I : Image} {s t : State} {c d : Nat} {mem mem' : Mem}
  {returned returned' : List (Nat × Nat)} {pc : Pc}

/-- A portion depends on its own marks and on the ids allocated there. -/
theorem Pc.Portion.frame (portion : pc.Portion I mem returned c)
    (marks : ∀ k, home k = c → markOf I mem' k = markOf I mem k)
    (ids : ∀ id, (c, id) ∈ returned' ↔ (c, id) ∈ returned) : pc.Portion I mem' returned' c := by
  have marked : ∀ k, home k = c → (Marked I mem' k ↔ Marked I mem k) := fun k hk =>
    Eq.congr_left (marks k hk)
  have accounts : Accounts I mem returned c → Accounts I mem' returned' c := fun accounts k hk =>
    (marked k hk).trans ((accounts k hk).trans (ids _).symm)
  cases pc with
  | down => exact fun id member => portion id ((ids id).mp member)
  | zero j =>
      obtain ⟨hc, none, zeroed⟩ := portion
      refine ⟨hc, fun id member => none id ((ids id).mp member), fun k hk before => ?_⟩
      rw [marks k hk]
      exact zeroed k hk before
  | scan i =>
      obtain ⟨hc, acc, all⟩ := portion
      exact ⟨hc, accounts acc, fun k hk before => (marked k hk).mpr (all k hk before)⟩
  | mark i =>
      obtain ⟨hc, acc, k, hk, pk, unmarked⟩ := portion
      exact ⟨hc, accounts acc, k, hk, pk, fun m => unmarked ((marked k hk).mp m)⟩
  | table | tableFt | idle | bindMf | bindArg | test | reset | resetFt | next | missMf | missArg
  | missFunc | cacheObj | loadBv | storeBv => exact ⟨portion.1, accounts portion.2⟩

/-- A core that has allocated an id has cleared its portion before. -/
theorem Pc.Portion.accounts {id : Nat} (portion : pc.Portion I mem returned c)
    (member : (c, id) ∈ returned) : Accounts I mem returned c := by
  cases pc with
  | down => exact absurd member (portion id)
  | zero => exact absurd member (portion.2.1 id)
  | scan | mark => exact portion.2.1
  | table | tableFt | idle | bindMf | bindArg | test | reset | resetFt | next | missMf | missArg
  | missFunc | cacheObj | loadBv | storeBv => exact portion.2

theorem Inv.obtained (inv : Inv I s) {id : Nat} (obtained : s.Obtained id) : ∃ k, id = I.id k := by
  obtain ⟨⟨c, id⟩, member, rfl⟩ := List.mem_map.mp obtained.2
  obtain ⟨k, _, same⟩ := inv.entry c id member obtained.1
  exact ⟨k, same⟩

/-- A step of core `c` that writes no mark. -/
theorem Inv.go (inv : Inv I s) (marks : ∀ k, markOf I mem k = markOf I s.mem k)
    (portion : pc.Portion I mem s.returned c) (works : pc.Works I c) :
    Inv I ({ s with mem }.goto c pc) := by
  constructor
  · exact inv.entry
  · exact inv.distinct
  · intro d
    by_cases same : d = c
    · subst same
      simpa [State.goto] using portion
    · have other := (inv.portion d).frame (fun k _ => marks k) fun _ => Iff.rfl
      simpa [State.goto, same] using other
  · intro d
    by_cases same : d = c
    · subst same
      simpa [State.goto] using works
    · simpa [State.goto, same] using inv.works d

/-! ### Writes to the tables -/

theorem markOf_globalEntry {k l : Slot} {i v : Nat} (hi : i < transSize) (other : i ≠ 16) :
    markOf I (setWord mem (I.globalEntry l) i v) k = markOf I mem k := by
  rw [markOf, setWord_apply, if_neg]
  · rfl
  · intro clash
    have := ((I.globalEntry_inj (by decide) hi).mp clash).2
    omega

theorem markOf_localEntry {k l : Slot} {i v : Nat} :
    markOf I (setWord mem (I.localEntry c l) i v) k = markOf I mem k := by
  rw [markOf, setWord_apply, if_neg]
  · rfl
  · exact (I.localEntry_ne_globalEntry (by decide)).symm

/-- The words that `bzero` clears, among the marks. -/
theorem zero_mark {k : Slot} {j : Nat} (hc : c < maxPics) (hj : 8 * j < mygmemSize) :
    I.globalEntry k + 16 = mygmem I c + 8 * j ↔
      home k = c ∧ transSize * place k + 16 = 8 * j := by
  have fits := I.fits
  have bound := k.isLt
  have index := Nat.div_add_mod k.val myNumGTrans
  have inside := place_lt k
  have start : mygmem I c = I.base + c * mygmemSize := by
    simp only [maxPics, tblSize] at hc fits
    simp only [mygmem, TransMem.gmem, mygmemSize, tblSize, maxPics]
    rw [Word64.add_of_lt (by omega)]
  rw [start]
  simp only [maxPics, tblSize, myNumGTrans, mygmemSize, transSize, home, place,
    TransMem.globalEntry] at *
  omega

/-! ### Steps -/

/-- `bzero` clears one more word. -/
theorem Inv.zero {j : Nat} (inv : Inv I s) (at_ : s.pc c = .zero j) (hj : 8 * j < mygmemSize) :
    Inv I ((s.store (mygmem I c) (8 * j) 0).goto c (.zero (j + 1))) := by
  obtain ⟨hc, none, zeroed⟩ := at_ ▸ inv.portion c
  have other : ∀ k, home k ≠ c →
      markOf I (setWord s.mem (mygmem I c) (8 * j) 0) k = markOf I s.mem k := by
    intro k hk
    rw [markOf, setWord_apply, if_neg]
    · rfl
    · exact fun clash => hk ((zero_mark hc hj).mp clash).1
  constructor
  · exact inv.entry
  · exact inv.distinct
  · intro d
    by_cases same : d = c
    · subst same
      simp only [State.goto, State.store, Function.update_self]
      refine ⟨hc, none, fun k hk before => ?_⟩
      rw [markOf, setWord_apply]
      by_cases word : I.globalEntry k + 16 = mygmem I d + 8 * j
      · rw [if_pos word]
      · rw [if_neg word]
        apply zeroed k hk
        have := mt (zero_mark hc hj).mpr word
        simp only [transSize, hk, true_and] at this before ⊢
        omega
    · have portion := (inv.portion d).frame (fun k hk => other k (hk ▸ same)) fun _ => Iff.rfl
      simpa [State.goto, State.store, same] using portion
  · intro d
    by_cases same : d = c
    · subst same
      simp [State.goto, Pc.Works]
    · simpa [State.goto, State.store, same] using inv.works d

/-- When `bzero` is done, no entry of the portion is marked. -/
theorem Inv.cleared {j : Nat} (inv : Inv I s) (at_ : s.pc c = .zero j) (hj : ¬ 8 * j < mygmemSize) :
    c < maxPics ∧ Accounts I s.mem s.returned c := by
  obtain ⟨hc, none, zeroed⟩ := at_ ▸ inv.portion c
  refine ⟨hc, fun k hk => ?_⟩
  have unmarked : ¬ Marked I s.mem k := by
    have inside := place_lt k
    have word := zeroed k hk (by
      simp only [myNumGTrans, mygmemSize, tblSize, maxPics, transSize] at *
      omega)
    rw [Marked, show s.mem (I.globalEntry k + 16) = 0 from word]
    decide
  exact iff_of_false unmarked (none _)

/-- A core returns from `TransEBBIdAlloc`. -/
theorem Inv.ret {id : Nat} (mem : Mem) (inv : Inv I s) (hc : c < maxPics)
    (marks : ∀ k, home k ≠ c → markOf I mem k = markOf I s.mem k)
    (accounts : Accounts I mem ((c, id) :: s.returned) c)
    (fresh : id ≠ 0 → (∃ k, home k = c ∧ id = I.id k) ∧ id ∉ s.returned.map Prod.snd) :
    Inv I ({ s with mem }.ret c id) := by
  constructor
  · intro d id' member some
    obtain new | old := List.mem_cons.mp member
    · cases new
      exact (fresh some).1
    · exact inv.entry d id' old some
  · by_cases null : id = 0
    · simpa [State.ret, State.goto, null] using inv.distinct
    · simp only [State.ret, State.goto, List.map_cons]
      rw [List.filter_cons_of_pos (by simpa using null), List.nodup_cons]
      exact ⟨fun member => (fresh null).2 (List.mem_filter.mp member).1, inv.distinct⟩
  · intro d
    by_cases same : d = c
    · subst same
      simpa [State.ret, State.goto] using ⟨hc, accounts⟩
    · have other : (s.pc d).Portion I mem ((c, id) :: s.returned) d :=
        (inv.portion d).frame (fun k hk => marks k (hk ▸ same)) fun id' => by simp [same]
      simpa [State.ret, State.goto, same] using other
  · intro d
    by_cases same : d = c
    · subst same
      simp [State.ret, State.goto, Pc.Works]
    · simpa [State.ret, State.goto, same] using inv.works d

/-- The call finds no entry. -/
theorem Inv.full {i : Nat} (inv : Inv I s) (at_ : s.pc c = .scan i) (hi : ¬ i < myNumGTrans) :
    Inv I (s.ret c 0) ∧ ∀ k, home k = c → (c, I.id k) ∈ s.returned := by
  obtain ⟨hc, accounts, all⟩ := at_ ▸ inv.portion c
  have marked : ∀ k, home k = c → Marked I s.mem k := by
    intro k hk
    have := place_lt k
    exact all k hk (by omega)
  constructor
  · apply inv.ret s.mem hc (fun _ _ => rfl)
    · intro k hk
      rw [accounts k hk]
      simp [I.id_ne_zero]
    · exact fun some => absurd rfl some
  · exact fun k hk => (accounts k hk).mp (marked k hk)

/-- The call marks the entry that it has found. -/
theorem Inv.grant {i : Nat} (inv : Inv I s) (at_ : s.pc c = .mark i) :
    Inv I ((s.store (mygmem I c + transSize * i) 16 allocated).ret c
      (I.gt2id (mygmem I c + transSize * i))) ∧
      ∃ k, home k = c ∧ I.gt2id (mygmem I c + transSize * i) = I.id k ∧
        (c, I.id k) ∉ s.returned := by
  obtain ⟨hc, accounts, k, hk, pk, unmarked⟩ := at_ ▸ inv.portion c
  have entry : mygmem I c + transSize * i = I.globalEntry k := by
    subst hk pk
    exact mygmem_place hc
  have fresh : (c, I.id k) ∉ s.returned := fun member => unmarked ((accounts k hk).mpr member)
  rw [entry, I.gt2id_globalEntry]
  refine ⟨?_, k, hk, rfl, fresh⟩
  apply inv.ret (setWord s.mem (I.globalEntry k) 16 allocated) hc
  · intro l hl
    rw [markOf, setWord_apply, if_neg]
    · rfl
    · intro clash
      have same := ((I.globalEntry_inj (by decide) (by decide)).mp clash).1
      exact hl (same ▸ hk)
  · intro l hl
    rw [marked_setWord, accounts l hl, List.mem_cons]
    apply or_congr_left
    constructor
    · rintro rfl
      rfl
    · intro same
      exact I.id_inj (Prod.mk.inj same).2
  · intro some
    refine ⟨⟨k, hk, rfl⟩, fun member => ?_⟩
    obtain ⟨⟨d, id⟩, there, rfl⟩ := List.mem_map.mp member
    obtain ⟨l, hl, same⟩ := inv.entry d _ there some
    obtain rfl := I.id_inj same
    exact fresh ((hl.symm.trans hk) ▸ there)

/-- A step of a core that has started and goes on without a new id. -/
theorem Inv.proceed (inv : Inv I s) (up : c < maxPics ∧ Accounts I s.mem s.returned c)
    (marks : ∀ k, markOf I mem k = markOf I s.mem k)
    (plain : ∀ mem returned,
      pc.Portion I mem returned c = (c < maxPics ∧ Accounts I mem returned c))
    (works : pc.Works I c) : Inv I ({ s with mem }.goto c pc) := by
  apply inv.go marks _ works
  rw [plain]
  refine ⟨up.1, fun k hk => ?_⟩
  rw [← up.2 k hk]
  exact Eq.congr_left (marks k)

theorem Inv.move {n : Nat} (inv : Inv I s) (moved : s.move I c n (s.pc c) = some t) : Inv I t := by
  have portion := inv.portion c
  have works := inv.works c
  cases at_ : s.pc c with
  | down | idle | missFunc =>
      rw [at_] at moved
      cases moved
  | zero j =>
      rw [at_] at moved
      cases moved
      by_cases hj : 8 * j < mygmemSize
      · rw [if_pos hj]
        exact inv.zero at_ hj
      · rw [if_neg hj]
        exact inv.proceed (inv.cleared at_ hj) (fun _ => rfl) (fun _ _ => rfl) trivial
  | table i =>
      rw [at_] at moved portion
      cases moved
      by_cases hi : i < numTrans
      · rw [if_pos hi]
        have entry : I.lmemr c + transSize * i = I.localEntry c ⟨i, hi⟩ := by
          rw [I.lmemr_eq portion.1]
          rfl
        rw [entry]
        exact inv.proceed portion (fun _ => markOf_localEntry) (fun _ _ => rfl) hi
      · rw [if_neg hi]
        exact inv.proceed portion (fun _ => rfl) (fun _ _ => rfl) trivial
  | tableFt i =>
      rw [at_] at moved portion works
      cases moved
      have entry : I.lmemr c + transSize * i = I.localEntry c ⟨i, works⟩ := by
        rw [I.lmemr_eq portion.1]
        rfl
      rw [entry]
      exact inv.proceed portion (fun _ => markOf_localEntry) (fun _ _ => rfl) trivial
  | scan i =>
      rw [at_] at moved portion
      cases moved
      by_cases hi : i < myNumGTrans
      · rw [if_pos hi]
        obtain ⟨hc, accounts, all⟩ := portion
        obtain ⟨k, entry, hk, pk⟩ := mygmem_entry (I := I) hc hi
        rw [entry]
        by_cases free : s.mem (I.globalEntry k + 16) ≠ allocated
        · rw [if_pos free]
          exact inv.go (fun _ => rfl) ⟨hc, accounts, k, hk, pk, free⟩ trivial
        · rw [if_neg free]
          refine inv.go (fun _ => rfl) ⟨hc, accounts, fun l hl before => ?_⟩ trivial
          by_cases here : place l = i
          · obtain rfl : l = k := slot_ext (hl.trans hk.symm) (here.trans pk.symm)
            exact not_not.mp free
          · exact all l hl (by omega)
      · rw [if_neg hi]
        exact (inv.full at_ hi).1
  | mark i =>
      rw [at_] at moved
      cases moved
      exact (inv.grant at_).1
  | bindMf id mf arg =>
      rw [at_] at moved portion works
      cases moved
      obtain ⟨k, rfl⟩ := works
      rw [I.id2gt_id]
      exact inv.proceed portion (fun _ => markOf_globalEntry (by decide) (by decide))
        (fun _ _ => rfl) ⟨k, rfl⟩
  | bindArg id arg =>
      rw [at_] at moved portion works
      cases moved
      obtain ⟨k, rfl⟩ := works
      rw [I.id2gt_id]
      exact inv.proceed portion (fun _ => markOf_globalEntry (by decide) (by decide))
        (fun _ _ => rfl) ⟨portion.1, k, rfl⟩
  | test id picId =>
      rw [at_] at moved portion works
      cases moved
      split
      · exact inv.proceed portion (fun _ => rfl) (fun _ _ => rfl) works
      · exact inv.proceed portion (fun _ => rfl) (fun _ _ => rfl) works
  | reset id picId | resetFt id picId =>
      rw [at_] at moved portion works
      cases moved
      obtain ⟨hp, k, rfl⟩ := works
      rw [I.id2rlt_id hp]
      exact inv.proceed portion (fun _ => markOf_localEntry) (fun _ _ => rfl) ⟨hp, k, rfl⟩
  | next id picId =>
      rw [at_] at moved portion works
      obtain ⟨⟨pos, few⟩, moved⟩ := Option.ite_none_right_eq_some.mp moved
      cases moved
      have later : getNextLpic n picId < maxPics := (Nat.mod_lt _ pos).trans_le few
      split
      · exact inv.proceed portion (fun _ => rfl) (fun _ _ => rfl) trivial
      · exact inv.proceed portion (fun _ => rfl) (fun _ _ => rfl) ⟨later, works.2⟩
  | missMf id | missArg id mf =>
      rw [at_] at moved portion works
      cases moved
      exact inv.proceed portion (fun _ => rfl) (fun _ _ => rfl) works
  | cacheObj lt obj =>
      rw [at_] at moved portion works
      cases moved
      obtain ⟨k, rfl⟩ := works
      exact inv.proceed portion (fun _ => markOf_localEntry) (fun _ _ => rfl) ⟨k, rfl⟩
  | loadBv lt =>
      rw [at_] at moved portion works
      cases moved
      exact inv.proceed portion (fun _ => rfl) (fun _ _ => rfl) works
  | storeBv lt bv =>
      rw [at_] at moved portion works
      cases moved
      obtain ⟨k, rfl⟩ := works
      rw [I.lt2gt_localEntry _ portion.1]
      exact inv.proceed portion (fun _ => markOf_globalEntry (by decide) (by decide))
        (fun _ _ => rfl) trivial

theorem Inv.step {a : Action} (inv : Inv I s) (moved : s.step I a = some t) : Inv I t := by
  cases a with
  | move c numlpics => exact inv.move moved
  | start c =>
      obtain ⟨⟨hc, down⟩, moved⟩ := Option.ite_none_right_eq_some.mp moved
      cases moved
      have none : ∀ id, (c, id) ∉ s.returned := by
        have portion := inv.portion c
        rwa [down] at portion
      exact inv.go (fun _ => rfl)
        ⟨hc, none, fun _ _ before => absurd before (Nat.not_lt_zero _)⟩ trivial
  | alloc c =>
      obtain ⟨idle, moved⟩ := Option.ite_none_right_eq_some.mp moved
      cases moved
      obtain ⟨hc, accounts⟩ := idle ▸ inv.portion c
      exact inv.go (fun _ => rfl)
        ⟨hc, accounts, fun _ _ before => absurd before (Nat.not_lt_zero _)⟩
        trivial
  | bind c id mf arg | miss c id =>
      obtain ⟨⟨idle, obtained⟩, moved⟩ := Option.ite_none_right_eq_some.mp moved
      cases moved
      have portion := idle ▸ inv.portion c
      exact inv.proceed portion (fun _ => rfl) (fun _ _ => rfl) (inv.obtained obtained)
  | answer c obj =>
      simp only [State.step] at moved
      split at moved
      · rename_i id mf arg at_
        cases moved
        have portion := at_ ▸ inv.portion c
        obtain ⟨k, rfl⟩ : ∃ k, id = I.id k := by
          have works := inv.works c
          rwa [at_] at works
        cases obj with
        | none => exact inv.proceed portion (fun _ => rfl) (fun _ _ => rfl) trivial
        | some obj =>
            exact inv.proceed portion (fun _ => rfl) (fun _ _ => rfl) ⟨k, I.id2lt_id portion.1 k⟩
      · cases moved
  | cache c id obj =>
      obtain ⟨⟨idle, obtained⟩, moved⟩ := Option.ite_none_right_eq_some.mp moved
      cases moved
      have portion := idle ▸ inv.portion c
      obtain ⟨k, rfl⟩ := inv.obtained obtained
      exact inv.proceed portion (fun _ => rfl) (fun _ _ => rfl) ⟨k, I.id2lt_id portion.1 k⟩

theorem inv_reach (run : (machine I).Reach s) : Inv I s := by
  apply run.invariant
  · rintro s ⟨down, none⟩
    constructor
    · simp [none]
    · simp [none]
    · intro c
      rw [down, none]
      exact fun id => List.not_mem_nil
    · intro c
      rw [down]
      trivial
  · intro _ _ _ _ inv _ moved
    exact inv.step moved

/-! ### What the invariant gives -/

/-- The entries of a portion lie between its bounds. -/
theorem globalEntry_inside {k : Slot} (hk : home k = c) :
    mygmemSize * c ≤ I.globalEntry k - I.gmem ∧
      I.globalEntry k - I.gmem + transSize ≤ mygmemSize * (c + 1) ∧
      I.gmem ≤ I.globalEntry k ∧ transSize ∣ I.globalEntry k - I.gmem := by
  have index := Nat.div_add_mod k.val myNumGTrans
  have inside := place_lt k
  have offset : I.globalEntry k - I.gmem = transSize * k := by
    simp only [TransMem.globalEntry, TransMem.gmem]
    omega
  rw [offset]
  refine ⟨?_, ?_, ?_, Nat.dvd_mul_right _ _⟩
  · simp only [myNumGTrans, mygmemSize, tblSize, maxPics, transSize, home, place] at *
    omega
  · simp only [myNumGTrans, mygmemSize, tblSize, maxPics, transSize, home, place] at *
    omega
  · exact Nat.le_add_right _ _

/-- The steps at which a call of `TransEBBIdAlloc` returns. -/
theorem returned_cases {a : Action} (moved : s.step I a = some t) :
    t.returned = s.returned ∨
      (∃ c i, s.pc c = .scan i ∧ ¬ i < myNumGTrans ∧ t.returned = (c, 0) :: s.returned) ∨
      ∃ c i, s.pc c = .mark i ∧
        t.returned = (c, I.gt2id (mygmem I c + transSize * i)) :: s.returned := by
  cases a with
  | move c n =>
      simp only [State.step] at moved
      cases at_ : s.pc c with
      | scan i =>
          rw [at_] at moved
          cases moved
          by_cases hi : i < myNumGTrans
          · rw [if_pos hi]
            split <;> exact .inl rfl
          · rw [if_neg hi]
            exact .inr (.inl ⟨c, i, at_, hi, rfl⟩)
      | mark i =>
          rw [at_] at moved
          cases moved
          exact .inr (.inr ⟨c, i, at_, rfl⟩)
      | zero | table =>
          rw [at_] at moved
          cases moved
          split <;> exact .inl rfl
      | next =>
          rw [at_] at moved
          obtain ⟨_, moved⟩ := Option.ite_none_right_eq_some.mp moved
          cases moved
          exact .inl rfl
      | down | idle | missFunc =>
          rw [at_] at moved
          cases moved
      | tableFt | bindMf | bindArg | test | reset | resetFt | missMf | missArg | cacheObj | loadBv
      | storeBv =>
          rw [at_] at moved
          cases moved
          exact .inl rfl
  | start | alloc | bind | miss | cache =>
      obtain ⟨_, moved⟩ := Option.ite_none_right_eq_some.mp moved
      cases moved
      exact .inl rfl
  | answer c obj =>
      simp only [State.step] at moved
      split at moved
      · cases moved
        exact .inl rfl
      · cases moved

theorem Inv.null {a : Action} {id : Nat} (inv : Inv I s) (moved : s.step I a = some t)
    (returns : t.returned = (c, id) :: s.returned) :
    id = 0 ↔ ∀ k, home k = c → (c, I.id k) ∈ s.returned := by
  obtain same | ⟨d, i, at_, hi, ret⟩ | ⟨d, i, at_, ret⟩ := returned_cases moved
  · rw [same] at returns
    exact absurd returns (List.cons_ne_self _ _).symm
  · rw [ret] at returns
    cases returns
    exact iff_of_true rfl (inv.full at_ hi).2
  · rw [ret] at returns
    cases returns
    obtain ⟨_, k, hk, same, fresh⟩ := inv.grant at_
    rw [same]
    exact iff_of_false (I.id_ne_zero k) fun all => fresh (all k hk)

/-- Ids are distinct and lie in the portion of their core, in every interleaving. -/
theorem distinct_reach (run : (machine I).Reach s) : Distinct I s := by
  have inv := inv_reach run
  constructor
  · exact inv.distinct
  · intro c id member some
    obtain ⟨k, hk, rfl⟩ := inv.entry c id member some
    rw [I.id2gt_id]
    exact globalEntry_inside hk
  · intro c id member some
    obtain ⟨k, hk, rfl⟩ := inv.entry c id member some
    rw [I.id2gt_id]
    exact ((inv.portion c).accounts member k hk).mpr member
  · intro a t c id moved returns
    exact inv.null moved returns

/-! ### A core starts -/

@[simp] theorem goto_pc : (s.goto c pc).pc c = pc := Function.update_self ..

theorem goto_pc_ne {d : Nat} (other : d ≠ c) : (s.goto c pc).pc d = s.pc d :=
  Function.update_of_ne other ..

theorem reach_move {n : Nat} (run : (machine I).Reach s) (at_ : s.pc c = pc)
    (moved : s.move I c n pc = some t) : (machine I).Reach t := by
  apply Machine.ReachVia.step (a := .move c n) run trivial
  rwa [← at_] at moved

/-- Nothing happens on the other cores. -/
def Alone (c : Nat) (s t : State) : Prop := ∀ d, d ≠ c → t.pc d = s.pc d

/-- A core gets through `bzero`. -/
theorem reach_zero (run : (machine I).Reach s) (hc : c < maxPics) (down : s.pc c = .down) {j : Nat}
    (hj : 8 * j ≤ mygmemSize) :
    ∃ t, (machine I).Reach t ∧ t.pc c = .zero j ∧ t.returned = s.returned ∧ Alone c s t := by
  induction j with
  | zero =>
      refine ⟨s.goto c (.zero 0), .step (a := .start c) run trivial ?_, goto_pc, rfl,
        fun _ => goto_pc_ne⟩
      exact if_pos ⟨hc, down⟩
  | succ j ih =>
      obtain ⟨t, run, at_, same, alone⟩ := ih (by omega)
      have moved : t.move I c 0 (.zero j) =
          some ((t.store (mygmem I c) (8 * j) 0).goto c (.zero (j + 1))) := by
        rw [State.move, if_pos (by omega)]
      exact ⟨_, reach_move run at_ moved, goto_pc, same,
        fun d other => (goto_pc_ne other).trans (alone d other)⟩

/-- A core gets through `initLTable`. -/
theorem reach_table (run : (machine I).Reach s) (at_ : s.pc c = .table 0) {i : Nat}
    (hi : i ≤ numTrans) :
    ∃ t, (machine I).Reach t ∧ t.pc c = .table i ∧ t.returned = s.returned ∧ Alone c s t := by
  induction i with
  | zero => exact ⟨s, run, at_, rfl, fun _ _ => rfl⟩
  | succ i ih =>
      obtain ⟨t, run, at_, same, alone⟩ := ih (by omega)
      have first : t.move I c 0 (.table i) = some
          ((t.store (I.lmemr c + transSize * i) 0 (I.lmemr c + transSize * i + 8)).goto c
            (.tableFt i)) := by
        rw [State.move, if_pos (by omega)]
      exact ⟨_, reach_move (n := 0) (reach_move run at_ first) goto_pc rfl, goto_pc, same,
        fun d other => (goto_pc_ne other).trans ((goto_pc_ne other).trans (alone d other))⟩

/-- A core that starts ends up where it can allocate ids. -/
theorem reach_idle (run : (machine I).Reach s) (hc : c < maxPics) (down : s.pc c = .down) :
    ∃ t, (machine I).Reach t ∧ t.pc c = .idle ∧ t.returned = s.returned ∧ Alone c s t := by
  obtain ⟨t, run, at_, same, alone⟩ := reach_zero run hc down (j := 2048) (by decide)
  have cleared : t.move I c 0 (.zero 2048) = some (t.goto c (.table 0)) := rfl
  obtain ⟨u, run, at_, same', alone'⟩ :=
    reach_table (c := c) (reach_move run at_ cleared) goto_pc (Nat.le_refl numTrans)
  have done : u.move I c 0 (.table numTrans) = some (u.goto c .idle) := by
    rw [State.move, if_neg (Nat.lt_irrefl _)]
  refine ⟨_, reach_move run at_ done, goto_pc, same'.trans same, fun d other => ?_⟩
  rw [goto_pc_ne other, alone' d other, goto_pc_ne other, alone d other]

/-- The first id that a core allocates. -/
theorem reach_alloc (run : (machine I).Reach s) (idle : s.pc c = .idle)
    (none : ∀ id, (c, id) ∉ s.returned) :
    ∃ t id, (machine I).Reach t ∧ id ≠ 0 ∧ t.returned = (c, id) :: s.returned ∧ Alone c s t := by
  have call : (machine I).Reach (s.goto c (.scan 0)) :=
      .step (a := .alloc c) run trivial (if_pos idle)
  obtain ⟨hc, accounts⟩ := idle ▸ (inv_reach run).portion c
  obtain ⟨k, entry, hk, _⟩ := mygmem_entry (I := I) hc (i := 0) (by decide)
  have free : s.mem (I.globalEntry k + 16) ≠ allocated :=
    fun marked => none _ ((accounts k hk).mp marked)
  have scan : (s.goto c (.scan 0)).move I c 0 (.scan 0) =
      some ((s.goto c (.scan 0)).goto c (.mark 0)) := by
    rw [State.move, if_pos (by decide), entry]
    exact congrArg some (if_pos free)
  have found := reach_move call goto_pc scan
  refine ⟨_, _, reach_move (n := 0) found goto_pc rfl, ?_, rfl, fun d other => ?_⟩
  · rw [entry, I.gt2id_globalEntry]
    exact I.id_ne_zero k
  · exact (goto_pc_ne other).trans ((goto_pc_ne other).trans (goto_pc_ne other))

/-- Two cores start, and each of them allocates. -/
theorem distinct_sample : ∃ s id id', (machine sampleImage).Reach s ∧
    s.returned = [(62, id'), (63, id)] ∧ id ≠ 0 ∧ id' ≠ 0 ∧ Distinct sampleImage s := by
  have start : (machine sampleImage).Reach ⟨sampleMem, fun _ => .down, []⟩ :=
      .init ⟨fun _ => rfl, rfl⟩
  obtain ⟨s₁, run, first, none, alone⟩ := reach_idle (c := 63) start (by decide) rfl
  obtain ⟨s₂, run, second, none', alone'⟩ :=
    reach_idle (c := 62) run (by decide) (alone 62 (by decide))
  have empty : s₂.returned = [] := none'.trans none
  have idle : s₂.pc 63 = .idle := (alone' 63 (by decide)).trans first
  obtain ⟨s₃, id, run, granted, ids, alone₃⟩ := reach_alloc run idle (by simp [empty])
  rw [empty] at ids
  have idle' : s₃.pc 62 = .idle := (alone₃ 62 (by decide)).trans second
  obtain ⟨s₄, id', run, granted', ids', -⟩ := reach_alloc run idle' (by simp [ids])
  exact ⟨s₄, id, id', run, by rw [ids', ids], granted, granted', distinct_reach run⟩

end

end EBBLib.Trans.Unique
