import EBBLib.EventMgr.Register

/-!
# Failing registrations

A call of `EventMgrPrim_registerHandler` that fails enables the vector all the same, and
where the pic fails, only the tables of the event manager are taken back, to `NULL` and
`NOFUNCNUM`, and not the vectors of the pic. So a failing call changes nothing only where
all that it leaves behind was there before.
-/

namespace EBBLib.EventMgrPrimImp.Register

open CObjEBBRootMultiImp
open Pic.Vectors (numVec)
open Pic.Unix (Src)

namespace State

variable (s : State)

/-- A representative on the list of the root. -/
def Registered (r : Nat) : Prop :=
  ∃ xs, Registers s.mgr.heap s.mgr.rootRef xs ∧ r ∈ reps s.mgr.heap xs

/-- The pic calls `h` for the vector already, on all cores. -/
def Mapped (eventNo h : Nat) : Prop :=
  s.pic.gvecs eventNo = h ∧ ∀ id ≤ s.pic.lastid, s.pic.lvecs id eventNo = h

end State

section

variable {s t : State} {core self eventNo h r : Nat} {info : HandlerInfo} {isrc : Src}
variable {mapped : Bool} {xs : List Nat} {vfTbl : Nat → Nat} {rc : EBBRC}

theorem Inv.registered_iff (inv : Inv s xs) : s.Registered r ↔ r ∈ reps s.mgr.heap xs := by
  constructor
  · rintro ⟨ys, listed, member⟩
    obtain rfl := listed.linked.unique inv.ready.registers.linked
    exact member
  · exact fun member => ⟨xs, inv.ready.registers, member⟩

/-! ### What a call leaves behind -/

/-- Functions at some addresses. -/
def sampleTbl (eventNo : Nat) : Nat := eventNo + 100

/-- Core 0 has come up. -/
def sample : State := ⟨EventMgrPrimImp.sample, Pic.Calls.lrtPicInit 5 2⟩

theorem init_sample : (machine sampleTbl 5).init sample :=
  ⟨EventMgrPrimImp.init_sample, 2, by decide, rfl⟩

end

end EBBLib.EventMgrPrimImp.Register
