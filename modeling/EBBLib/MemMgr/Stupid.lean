import EBBLib.Library.Word
import EBBLib.Types
import Mathlib.Algebra.Order.BigOperators.Group.List

/-!
# The allocator of `MemMgrPrimStupid.c`

The representative stands at the start of the arena, and allocations are cut off behind it
until the arena is used up. A release does nothing. An allocation that does not fit stores a
null pointer, and returns the same code as one that does.
-/

namespace EBBLib.MemMgrPrimStupid

/-- `sizeof(EBBMemMgrPrimStupid)`: the function table, the root, `mem` and `len`. -/
def repSize : Nat := 32

/-- The fields of the representative that the allocator uses. -/
structure Rep where
  mem : Nat
  len : Nat
deriving DecidableEq, Repr

/-- `init_rep`. -/
def initRep (self arenaEnd : Nat) : Rep :=
  let mem := Word64.add self repSize
  { mem, len := Word64.sub arenaEnd mem }

/-- `EBBMemMgrPrimStupid_alloc`: the return code, `*mem` and the representative. -/
def alloc (self : Rep) (size : Nat) : EBBRC × Nat × Rep :=
  if self.len < size then (EBBRC.ok, 0, self)
  else
    (EBBRC.ok, self.mem, { mem := Word64.add self.mem size, len := Word64.sub self.len size })

/-- `EBBMemMgrPrimStupid_free`. -/
def free (self : Rep) (_size _mem : Nat) : EBBRC × Rep := (EBBRC.ok, self)

inductive Call where
  | alloc (size : Nat)
  | free (size mem : Nat)
deriving DecidableEq, Repr

/-- What a call asks for. -/
def Call.size : Call → Nat
  | alloc size => size
  | free .. => 0

/-- A call with the representative before and after it, and what it returns. A release
stores no pointer. -/
structure Event where
  call : Call
  before : Rep
  rc : EBBRC
  mem : Nat
  after : Rep
deriving DecidableEq

/-- A call. -/
def Call.event (self : Rep) : Call → Event
  | .alloc size =>
      let (rc, mem, after) := MemMgrPrimStupid.alloc self size
      { call := .alloc size, before := self, rc, mem, after }
  | .free size mem =>
      let (rc, after) := MemMgrPrimStupid.free self size mem
      { call := .free size mem, before := self, rc, mem := 0, after }

/-- A sequence of calls. -/
def history (self : Rep) : List Call → List Event
  | [] => []
  | call :: calls => call.event self :: history (call.event self).after calls

/-- The caller takes it that it has got `size` bytes. -/
def Event.Granted (e : Event) (size : Nat) : Prop := e.call = .alloc size ∧ EBBRC.success e.rc

/-- What a caller expects of one call on the arena from `start` to `arenaEnd`. -/
structure Event.Honoured (start arenaEnd : Nat) (e : Event) : Prop where
  inside : ∀ size, e.Granted size → e.mem ≠ 0 ∧ start ≤ e.mem ∧ e.mem + size ≤ arenaEnd
  /-- An allocation that does not fit fails and changes nothing. -/
  full : ∀ size, e.call = .alloc size → e.before.len < size →
    EBBRC.success e.rc = false ∧ e.after = e.before
  whole : e.after.mem + e.after.len = arenaEnd

/-- The later range is disjoint from the earlier one, which is not empty. -/
def Event.Apart (e e' : Event) : Prop :=
  ∀ size size', e.Granted size → e'.Granted size' → size ≠ 0 →
    e.mem + size ≤ e'.mem ∨ e'.mem + size' ≤ e.mem

/-- What callers expect of a sequence of calls. -/
structure Honours (start arenaEnd : Nat) (events : List Event) : Prop where
  each : ∀ e ∈ events, e.Honoured start arenaEnd
  disjoint : events.Pairwise Event.Apart

section

variable {start arenaEnd size : Nat} {r : Rep} {call : Call} {calls : List Call} {e : Event}

/-- The representative between two calls. -/
structure Left (start arenaEnd : Nat) (r : Rep) : Prop where
  behind : start < r.mem
  total : r.mem + r.len = arenaEnd
  small : arenaEnd < 2 ^ 64

theorem left_initRep (holds : start + repSize ≤ arenaEnd) (small : arenaEnd < 2 ^ 64) :
    (initRep start arenaEnd).len = arenaEnd - (start + repSize) ∧
      Left start arenaEnd (initRep start arenaEnd) := by
  have mem : Word64.add start repSize = start + repSize := Word64.add_of_lt (by omega)
  have len : (initRep start arenaEnd).len = arenaEnd - (start + repSize) := by
    simp only [initRep, mem]
    exact Word64.sub_of_le holds small
  refine ⟨len, ?_, ?_, small⟩
  · have positive : 0 < repSize := by decide
    simp only [initRep, mem]
    omega
  · rw [len]
    simp only [initRep, mem]
    omega

/-- A call that fits cuts its size off. -/
theorem Left.event (left : Left start arenaEnd r) (fits : call.size ≤ r.len) :
    (call.event r).after = ⟨r.mem + call.size, r.len - call.size⟩ := by
  obtain ⟨_, total, small⟩ := left
  cases call with
  | free size mem => rfl
  | alloc size =>
      have fits : size ≤ r.len := fits
      have mem : Word64.add r.mem size = r.mem + size := Word64.add_of_lt (by omega)
      have len : Word64.sub r.len size = r.len - size := Word64.sub_of_le fits (by omega)
      simp only [Call.event, alloc, if_neg (Nat.not_lt.mpr fits), mem, len, Call.size]

theorem Left.after (left : Left start arenaEnd r) (fits : call.size ≤ r.len) :
    Left start arenaEnd (call.event r).after := by
  rw [left.event fits]
  obtain ⟨behind, total, small⟩ := left
  exact ⟨Nat.lt_add_right _ behind, by simp only; omega, small⟩

theorem call_event (call : Call) (r : Rep) :
    (call.event r).call = call ∧ (call.event r).before = r := by
  cases call with
  | alloc => exact ⟨rfl, rfl⟩
  | free => exact ⟨rfl, rfl⟩

theorem mem_event (fits : size ≤ r.len) : ((Call.alloc size).event r).mem = r.mem := by
  simp only [Call.event, alloc, if_neg (Nat.not_lt.mpr fits)]

/-- Every allocation succeeds. -/
theorem success_event : EBBRC.success (call.event r).rc := by
  cases call with
  | free => rfl
  | alloc size =>
      simp only [Call.event, alloc]
      split <;> rfl

theorem Left.honoured (left : Left start arenaEnd r) (fits : call.size ≤ r.len) :
    (call.event r).Honoured start arenaEnd := by
  obtain ⟨same, before⟩ := call_event call r
  constructor
  · rintro size ⟨asked, _⟩
    rw [same] at asked
    subst asked
    have behind := left.behind
    have total := left.total
    have fits : size ≤ r.len := fits
    rw [mem_event fits]
    omega
  · intro size asked full
    rw [same] at asked
    subst asked
    rw [before] at full
    exact absurd fits (Nat.not_le.mpr full)
  · exact (left.after fits).total

/-- An allocation that is honoured fits. -/
theorem Event.Honoured.fits (honoured : (call.event r).Honoured start arenaEnd) :
    call.size ≤ r.len := by
  obtain ⟨same, before⟩ := call_event call r
  cases call with
  | free => exact Nat.zero_le _
  | alloc size =>
      by_contra full
      have refused := (honoured.full size same (by rw [before]; exact Nat.not_le.mp full)).1
      rw [success_event] at refused
      cases refused

/-- Later ranges are behind what is used up. -/
theorem Left.behind_history (left : Left start arenaEnd r)
    (fits : (calls.map Call.size).sum ≤ r.len) :
    (∀ e ∈ history r calls, e.Honoured start arenaEnd ∧ ∀ size, e.Granted size → r.mem ≤ e.mem) ∧
      (history r calls).Pairwise Event.Apart := by
  induction calls generalizing r with
  | nil => exact ⟨by simp [history], List.Pairwise.nil⟩
  | cons call calls ih =>
      rw [List.map_cons, List.sum_cons] at fits
      have here : call.size ≤ r.len := by omega
      have after := left.event here
      obtain ⟨each, apart⟩ := ih (left.after here) (by rw [after]; simp only; omega)
      have grown : r.mem + call.size = (call.event r).after.mem := by rw [after]
      obtain ⟨same, _⟩ := call_event call r
      constructor
      · intro e member
        obtain rfl | later := List.mem_cons.mp member
        · refine ⟨left.honoured here, ?_⟩
          rintro size ⟨asked, _⟩
          rw [same] at asked
          subst asked
          exact (mem_event here).ge
        · obtain ⟨honoured, behind⟩ := each e later
          refine ⟨honoured, fun size granted => ?_⟩
          exact (Nat.le_add_right ..).trans (grown.trans_le (behind size granted))
      · refine List.pairwise_cons.mpr ⟨fun e later => ?_, apart⟩
        rintro size size' ⟨asked, _⟩ granted _
        rw [same] at asked
        subst asked
        left
        have here : size ≤ r.len := here
        rw [mem_event here]
        exact grown.trans_le ((each e later).2 size' granted)

/-- Calls that are honoured fit, all together. -/
theorem Left.sum_le (left : Left start arenaEnd r)
    (each : ∀ e ∈ history r calls, e.Honoured start arenaEnd) :
    (calls.map Call.size).sum ≤ r.len := by
  induction calls generalizing r with
  | nil => exact Nat.zero_le _
  | cons call calls ih =>
      have here : call.size ≤ r.len := (each _ List.mem_cons_self).fits
      have rest := ih (left.after here) fun e later => each e (List.mem_cons_of_mem _ later)
      rw [left.event here] at rest
      rw [List.map_cons, List.sum_cons]
      simp only at rest
      omega

end

/-- The allocator does what its callers expect as long as the arena is not used up. -/
theorem honours_iff {start arenaEnd : Nat} (holds : start + repSize ≤ arenaEnd)
    (small : arenaEnd < 2 ^ 64) (calls : List Call) :
    Honours start arenaEnd (history (initRep start arenaEnd) calls) ↔
      (calls.map Call.size).sum ≤ arenaEnd - (start + repSize) := by
  obtain ⟨len, left⟩ := left_initRep holds small
  rw [← len]
  constructor
  · exact fun honours => left.sum_le honours.each
  · intro fits
    obtain ⟨each, apart⟩ := left.behind_history fits
    exact ⟨fun e member => (each e member).1, apart⟩

theorem honours_page : Honours 4096 8192
    (history (initRep 4096 8192) [.alloc 100, .free 100 4128, .alloc 3964]) :=
  (honours_iff (by decide) (by decide) _).mpr (by decide)

/-- A request that is larger than a page gets a null pointer with `EBBRC_OK`. -/
theorem not_honours_page : (∃ e, history (initRep 4096 8192) [.alloc 5000] = [e] ∧
      e.rc = EBBRC.ok ∧ e.mem = 0) ∧
    ¬ Honours 4096 8192 (history (initRep 4096 8192) [.alloc 5000]) := by
  refine ⟨⟨_, rfl, by decide, by decide⟩, fun honours => ?_⟩
  have refused := (honours.each _ List.mem_cons_self).full 5000 rfl (by decide)
  exact absurd refused.1 (by decide)

end EBBLib.MemMgrPrimStupid
