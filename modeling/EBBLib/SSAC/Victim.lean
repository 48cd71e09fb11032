import EBBLib.Library.Leftmost
import EBBLib.SSAC.Slots
import Mathlib.Data.Nat.Basic

/-!
# The victim of a miss

`lruentry` stops at an entry with the invalid id if that is the first one that is not BUSY.
Such an entry has never been used, so that it is the least recently used one as well, and
the rest of the queue need not be looked at.
-/

namespace EBBLib.SSACSimpleSharedArray

open CacheObjectIdSimple HashQueues

/-- An entry that no writer holds. -/
def Idle (e : CacheEntrySimple) : Prop := e.busy = false

/-- Entries with the invalid id have not been used. -/
def Unused (es : List CacheEntrySimple) : Prop :=
  ∀ e ∈ es, valid e.id = false → e.lastused = 0

/-- Position `i` of a queue holds the first entry that is not BUSY and whose `lastused` is
least among these. -/
def IsLru (es : List CacheEntrySimple) (i : Nat) : Prop :=
  ∃ e, Leftmost Idle CacheEntrySimple.lastused es i e

/-- What the loop of `lruentry` keeps about the entries that it has passed. -/
def Best (seen : List CacheEntrySimple) : Option (Nat × Nat) → Prop
  | none => ∀ e ∈ seen, e.busy
  | some (i, lastused) =>
      ∃ e, Leftmost Idle CacheEntrySimple.lastused seen i e ∧ e.lastused = lastused

/-- What `lruentry` returns. -/
def Chosen (es : List CacheEntrySimple) : Option Nat → Prop
  | none => ∀ e ∈ es, e.busy
  | some i => IsLru es i

section

variable {seen es : List CacheEntrySimple} {e : CacheEntrySimple}

theorem not_idle (busy : e.busy) : ¬ Idle e := by
  simp [Idle, busy]

/-- A BUSY entry is passed by. -/
theorem Best.busy {best : Option (Nat × Nat)} (h : Best seen best) (busy : e.busy) :
    Best (seen ++ [e]) best := by
  match best with
  | none =>
      intro d mem
      rcases List.mem_append.mp mem with mem | mem
      · exact h d mem
      · rwa [List.mem_singleton.mp mem]
  | some (i, lastused) =>
      obtain ⟨a, found, same⟩ := h
      exact ⟨a, found.keep fun idle => absurd idle (not_idle busy), same⟩

/-- The loop goes on from any entry with the best one before it. -/
theorem lruFrom_chosen (unused : Unused es) {best : Option (Nat × Nat)} (h : Best seen best) :
    Chosen (seen ++ es) (lruFrom seen.length best es) := by
  induction es generalizing seen best with
  | nil =>
      rw [List.append_nil]
      match best with
      | none => exact h
      | some (i, lastused) =>
          obtain ⟨a, found, _⟩ := h
          exact ⟨a, found⟩
  | cons e es ih =>
      -- The entry joins the ones that have been passed.
      have later : ∀ {best}, Best (seen ++ [e]) best →
          Chosen (seen ++ e :: es) (lruFrom (seen.length + 1) best es) := by
        intro best h
        have := ih (fun d mem => unused d (List.mem_cons_of_mem e mem)) h
        rwa [List.append_assoc, List.singleton_append, List.length_append] at this
      by_cases busy : e.busy
      · have passed : lruFrom seen.length best (e :: es) = lruFrom (seen.length + 1) best es := by
          cases best <;> simp only [lruFrom, if_pos busy]
        rw [passed]
        exact later (h.busy busy)
      · have idle : Idle e := eq_false_of_ne_true busy
        match best with
        | none =>
            have none : ∀ d ∈ seen, ¬ Idle d := fun d mem => not_idle (h d mem)
            simp only [lruFrom, if_neg busy]
            by_cases isValid : valid e.id
            · simp only [isValid, Bool.not_true, Bool.false_eq_true, if_false]
              exact later ⟨e, Leftmost.start idle none, rfl⟩
            · -- The scan ends here, at an entry that nobody has used.
              have isInvalid := eq_false_of_ne_true isValid
              have zero := unused e List.mem_cons_self isInvalid
              simp only [isInvalid, Bool.not_false, if_true]
              exact ⟨e, Leftmost.middle idle (fun d mem idle => absurd idle (none d mem))
                fun d _ _ => zero ▸ Nat.zero_le _⟩
        | some (i, lastused) =>
            obtain ⟨a, found, rfl⟩ := h
            simp only [lruFrom, if_neg busy]
            by_cases older : e.lastused < a.lastused
            · rw [if_pos older]
              exact later ⟨e, found.replace idle older, rfl⟩
            · rw [if_neg older]
              exact later ⟨a, found.keep fun _ => Nat.le_of_not_lt older, rfl⟩

theorem lruentry_chosen (unused : Unused es) : Chosen es (lruentry es) := by
  have start : Best [] none := fun _ mem => absurd mem List.not_mem_nil
  exact lruFrom_chosen unused start

end

/-- Victim selection is LRU, wherever the scan ends. -/
theorem lruentry_lru {es : List CacheEntrySimple} (unused : Unused es) :
    (lruentry es = none ↔ ∀ e ∈ es, e.busy) ∧ ∀ i, lruentry es = some i ↔ IsLru es i := by
  refine ⟨lruentry_none_iff, fun i => ⟨fun found => ?_, fun ⟨e, lru⟩ => ?_⟩⟩
  · have chosen := lruentry_chosen unused
    rwa [found] at chosen
  · have chosen := lruentry_chosen unused
    cases found : lruentry es with
    | none =>
        have busy := lruentry_none_iff.mp found e (List.mem_of_getElem? lru.here)
        exact absurd lru.isFree (not_idle busy)
    | some k =>
        rw [found] at chosen
        obtain ⟨d, lru'⟩ := chosen
        rw [lru'.unique lru]

/-- A queue with a BUSY entry in front, and an unused and a discarded entry at its end. -/
def mixed : List CacheEntrySimple :=
  [⟨1, true, false, 1, 0⟩, ⟨2, false, false, 7, 0⟩, ⟨3, false, true, 3, 0⟩,
    ⟨invalid, false, false, 0, 0⟩, ⟨4, false, false, 0, 0⟩]

theorem lruentry_lru_mixed : lruentry mixed = some 3 ∧ IsLru mixed 3 ∧ ¬ ∀ e ∈ mixed, e.busy := by
  have unused : Unused mixed := by
    simp only [Unused, mixed]
    decide
  have victim : lruentry mixed = some 3 := by decide
  obtain ⟨none, some⟩ := lruentry_lru unused
  exact ⟨victim, (some 3).mp victim, by rw [← none, victim]; exact Option.some_ne_none 3⟩

end EBBLib.SSACSimpleSharedArray
