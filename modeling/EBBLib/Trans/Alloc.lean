import EBBLib.Trans.Dispatch

/-!
# Allocation of ids

Each core allocates ids from its own portion of the global table, and marks the entry
of an allocated id. An entry is never marked twice, so ids are distinct.
-/

namespace EBBLib.Trans

/-- `ALLOCATED`. -/
def allocated : Nat := 2 ^ 64 - 1

/-- `myNumGTrans`. -/
def myNumGTrans : Nat := mygmemSize / transSize

section

variable (I : Image)

/-- The loop of `TransEBBIdAlloc` from entry `i` on, with `fuel` entries left. -/
def allocFrom (gt : Nat) : Nat → Nat → Mem → Nat × Mem
  | 0, _, mem => (0, mem)
  | fuel + 1, i, mem =>
      let p := gt + transSize * i
      if mem (p + 16) ≠ allocated then (I.gt2id p, setWord mem p 16 allocated)
      else allocFrom gt fuel (i + 1) mem

/-- `TransEBBIdAlloc` on core `myid`: the id, or null when the portion is used up. -/
def transEBBIdAlloc (myid : Nat) (mem : Mem) : Nat × Mem :=
  allocFrom I (mygmem I myid) myNumGTrans 0 mem

/-- `TransEBBIdFree`. It stores the mark that an allocation stores. -/
def transEBBIdFree (mem : Mem) (id : Nat) : Mem := setWord mem (I.id2gt id) 16 allocated

/-- The entry of an id is marked as allocated. -/
def Marked (mem : Mem) (k : Slot) : Prop := mem (I.globalEntry k + 16) = allocated

instance (mem : Mem) (k : Slot) : Decidable (Marked I mem k) := inferInstanceAs (Decidable (_ = _))

/-- The id has a miss function and its argument. -/
def Bound (mem : Mem) (k : Slot) (mf arg : Nat) : Prop :=
  mem (I.globalEntry k) = mf ∧ mem (I.globalEntry k + 8) = arg

end

/-- The core whose portion an entry belongs to, and its index there. -/
def home (k : Slot) : Nat := k / myNumGTrans

def place (k : Slot) : Nat := k % myNumGTrans

section

variable {I : Image} {core : Nat} {mem : Mem} {k l : Slot}

theorem place_lt (k : Slot) : place k < myNumGTrans := Nat.mod_lt _ (by decide)

theorem slot_ext (same : home k = home l) (same' : place k = place l) : k = l := by
  apply Fin.ext
  rw [← Nat.div_add_mod k.val myNumGTrans, ← Nat.div_add_mod l.val myNumGTrans]
  exact congrArg₂ (fun a b => myNumGTrans * a + b) same same'

/-- Each index of a portion is an entry of the table. -/
theorem exists_slot (hc : core < maxPics) {i : Nat} (hi : i < myNumGTrans) :
    ∃ k : Slot, home k = core ∧ place k = i := by
  simp only [maxPics, tblSize, myNumGTrans, mygmemSize, transSize] at hc hi
  have slot : core * 512 + i < numTrans := by
    simp only [numTrans, tblSize, transSize]
    omega
  refine ⟨⟨core * 512 + i, slot⟩, ?_, ?_⟩
  · simp only [home, myNumGTrans, mygmemSize, tblSize, maxPics, transSize]
    omega
  · simp only [place, myNumGTrans, mygmemSize, tblSize, maxPics, transSize]
    omega

/-- The entries of a portion, by their indices. -/
theorem mygmem_place (hc : home k < maxPics) :
    mygmem I (home k) + transSize * place k = I.globalEntry k := by
  have fits := I.fits
  have index := Nat.div_add_mod k.val myNumGTrans
  simp only [maxPics, tblSize, myNumGTrans, mygmemSize, transSize, home, place] at *
  simp only [mygmem, mygmemSize, TransMem.globalEntry, TransMem.gmem, tblSize, maxPics, transSize]
  rw [Word64.add_of_lt (by omega)]
  omega

theorem mygmem_entry (hc : core < maxPics) {i : Nat} (hi : i < myNumGTrans) :
    ∃ k, mygmem I core + transSize * i = I.globalEntry k ∧ home k = core ∧ place k = i := by
  obtain ⟨k, rfl, rfl⟩ := exists_slot hc hi
  exact ⟨k, mygmem_place hc, rfl, rfl⟩

/-- `trans_init` on a core clears the marks of its portion. -/
theorem transInit_mark (hc : core < maxPics) (mine : home k = core) :
    transInit I core mem (I.globalEntry k + 16) = 0 := by
  have fits := I.fits
  have bound := k.isLt
  have entry := mygmem_place (I := I) (mine ▸ hc)
  have inside := place_lt k
  rw [mine] at entry
  rw [transInit, (initLTable_spec core _ numTrans).2, bzero, if_pos]
  · simp only [myNumGTrans, mygmemSize, tblSize, maxPics, transSize] at *
    omega
  · rw [I.lmemr_eq hc]
    simp only [TransMem.globalEntry, tblSize, transSize, numTrans] at *
    omega

/-- From entry `i` on, the loop takes the first entry that is not marked. -/
theorem allocFrom_cases (hc : core < maxPics) (mem : Mem) {fuel i : Nat}
    (total : i + fuel = myNumGTrans) :
    (∃ k, home k = core ∧ i ≤ place k ∧ ¬ Marked I mem k ∧
      (∀ l, home l = core → i ≤ place l → place l < place k → Marked I mem l) ∧
      allocFrom I (mygmem I core) fuel i mem =
        (I.id k, setWord mem (I.globalEntry k) 16 allocated)) ∨
    (∀ k, home k = core → i ≤ place k → Marked I mem k) ∧
      allocFrom I (mygmem I core) fuel i mem = (0, mem) := by
  induction fuel generalizing i with
  | zero =>
      refine .inr ⟨fun k _ after => ?_, rfl⟩
      have := place_lt k
      omega
  | succ fuel ih =>
      obtain ⟨k, entry, hk, pk⟩ := mygmem_entry (I := I) hc (show i < myNumGTrans by omega)
      rw [allocFrom, entry]
      by_cases marked : Marked I mem k
      · rw [if_neg (show ¬ mem (I.globalEntry k + 16) ≠ allocated from not_not_intro marked)]
        -- Entry `i` is marked, so statements about the later ones hold from `i` on.
        have here : ∀ l, home l = core → i ≤ place l → i + 1 ≤ place l ∨ Marked I mem l := by
          intro l hl after
          by_cases later : i + 1 ≤ place l
          · exact .inl later
          · have same : l = k := slot_ext (by omega) (by omega)
            exact .inr (same ▸ marked)
        obtain ⟨l, hl, after, unmarked, first, run⟩ | ⟨all, run⟩ := ih (i := i + 1) (by omega)
        · refine .inl ⟨l, hl, by omega, unmarked, fun m hm after' before => ?_, run⟩
          exact (here m hm after').elim (fun later => first m hm later before) id
        · refine .inr ⟨fun m hm after' => ?_, run⟩
          exact (here m hm after').elim (all m hm) id
      · rw [if_pos (show mem (I.globalEntry k + 16) ≠ allocated from marked), I.gt2id_globalEntry]
        exact .inl ⟨k, hk, by omega, marked, fun l _ _ _ => by omega, rfl⟩

/-- An allocation marks the first entry of the core's portion that is not marked, and
returns null when there is none. -/
theorem transEBBIdAlloc_cases (hc : core < maxPics) (mem : Mem) :
    (∃ k, home k = core ∧ ¬ Marked I mem k ∧
      (∀ l, home l = core → place l < place k → Marked I mem l) ∧
      transEBBIdAlloc I core mem = (I.id k, setWord mem (I.globalEntry k) 16 allocated)) ∨
    (∀ k, home k = core → Marked I mem k) ∧ transEBBIdAlloc I core mem = (0, mem) := by
  have start : 0 + myNumGTrans = myNumGTrans := Nat.zero_add _
  obtain ⟨k, hk, _, unmarked, first, run⟩ | ⟨all, run⟩ := allocFrom_cases hc mem start
  · exact .inl ⟨k, hk, unmarked, fun l hl => first l hl (Nat.zero_le _), run⟩
  · exact .inr ⟨fun k hk => all k hk (Nat.zero_le _), run⟩

/-- An allocation marks an entry of the core's portion that was not marked. -/
theorem transEBBIdAlloc_spec (hc : core < maxPics) {a : Nat} (room : a < myNumGTrans)
    (free : ∀ k, home k = core → a ≤ place k → ¬ Marked I mem k) :
    ∃ k, home k = core ∧ place k ≤ a ∧ ¬ Marked I mem k ∧
      transEBBIdAlloc I core mem = (I.id k, setWord mem (I.globalEntry k) 16 allocated) := by
  obtain ⟨l, _, hl, pl⟩ := mygmem_entry (I := I) hc room
  have unmarked : ¬ Marked I mem l := free l hl (by omega)
  obtain ⟨k, hk, notMarked, first, run⟩ | ⟨all, _⟩ := transEBBIdAlloc_cases (I := I) hc mem
  · refine ⟨k, hk, ?_, notMarked, run⟩
    by_contra later
    exact unmarked (first l hl (by omega))
  · exact absurd (all l hl) unmarked

/-- The mark is the third word of its entry only. -/
theorem marked_setWord :
    Marked I (setWord mem (I.globalEntry k) 16 allocated) l ↔ l = k ∨ Marked I mem l := by
  rw [Marked, setWord_apply]
  by_cases same : l = k
  · simp [same]
  · have apart : I.globalEntry l + 16 ≠ I.globalEntry k + 16 := fun clash =>
      same ((I.globalEntry_inj (by decide) (by decide)).mp clash).1
    rw [if_neg apart, Marked]
    exact (or_iff_right same).symm

theorem bound_setWord {mf arg v : Nat} :
    Bound I (setWord mem (I.globalEntry k) 16 v) l mf arg ↔ Bound I mem l mf arg := by
  have first : I.globalEntry l + 0 ≠ I.globalEntry k + 16 := fun clash => by
    have := ((I.globalEntry_inj (by decide) (by decide)).mp clash).2
    omega
  have second : I.globalEntry l + 8 ≠ I.globalEntry k + 16 := fun clash => by
    have := ((I.globalEntry_inj (by decide) (by decide)).mp clash).2
    omega
  rw [Nat.add_zero] at first
  simp only [Bound, setWord_apply, first, second, if_false]

/-- A bind leaves all marks and the bindings of the other ids alone. -/
theorem transEBBIdBind_bound {n : Nat} (hn : n ≤ maxPics) (hc : core < n) (mf arg : Nat)
    (mem : Mem) :
    ∃ mem', transEBBIdBind I n core (I.id k) mf arg mem = some mem' ∧ Bound I mem' k mf arg ∧
      (∀ l, Marked I mem' l ↔ Marked I mem l) ∧
      ∀ l mf' arg', l ≠ k → (Bound I mem' l mf' arg' ↔ Bound I mem l mf' arg') := by
  obtain ⟨mem', run, first, second, _, frame⟩ :=
    transEBBIdBind_spec (I := I) (k := k) hn hc mf arg mem
  -- The words of global entries other than the two that the bind writes.
  have kept : ∀ l i, i < transSize → l ≠ k ∨ i ≠ 0 ∧ i ≠ 8 →
      mem' (I.globalEntry l + i) = mem (I.globalEntry l + i) := by
    intro l i hi other
    apply frame
    · intro clash
      have := (I.globalEntry_inj hi (show 0 < transSize by decide)).mp clash
      tauto
    · intro clash
      have := (I.globalEntry_inj hi (by decide)).mp clash
      tauto
    · intro c _
      exact ⟨I.globalEntry_word_ne_localEntry hi, (I.localEntry_ne_globalEntry hi).symm⟩
  refine ⟨mem', run, ⟨first, second⟩, ?_, ?_⟩
  · intro l
    rw [Marked, Marked, kept l 16 (by decide) (.inr (by decide))]
  · intro l mf' arg' other
    have word := kept l 0 (by decide) (.inl other)
    rw [Nat.add_zero] at word
    rw [Bound, Bound, word, kept l 8 (by decide) (.inl other)]

/-- `EBBCacheObj` leaves all marks and bindings alone. -/
theorem ebbCacheObj_bound (hc : core < maxPics) (mem : Mem) (obj : Nat) :
    (∀ l, Marked I (ebbCacheObj I core mem (I.localEntry core k) obj) l ↔ Marked I mem l) ∧
      ∀ l mf arg, Bound I (ebbCacheObj I core mem (I.localEntry core k) obj) l mf arg ↔
        Bound I mem l mf arg := by
  have kept : ∀ l i, i < transSize → i ≠ 24 →
      ebbCacheObj I core mem (I.localEntry core k) obj (I.globalEntry l + i) =
        mem (I.globalEntry l + i) := by
    intro l i hi other
    apply ebbCacheObj_of_ne hc
    · intro clash
      exact other ((I.globalEntry_inj hi (by decide)).mp clash).2
    · exact I.globalEntry_word_ne_localEntry hi
  refine ⟨fun l => ?_, fun l mf arg => ?_⟩
  · rw [Marked, Marked, kept l 16 (by decide) (by decide)]
  · have word := kept l 0 (by decide) (by decide)
    rw [Nat.add_zero] at word
    rw [Bound, Bound, word, kept l 8 (by decide) (by decide)]

end

end EBBLib.Trans
