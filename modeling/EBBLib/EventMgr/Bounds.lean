import EBBLib.EventMgr.Failing

/-!
# The numbers of events

The event manager compares the number of an event with the size of its tables, which is 256.
The pic has 34 vectors, and compares the entry of the vector with null. That keeps vectors out
that are not allocated, but not the reset vector, and not the memory behind the array.
-/

namespace EBBLib.EventMgrPrimImp.Register

open Pic.Vectors (numVec numMappableVec rstVec)
open Pic.Calls (Access)
open Pic.Unix (Src)

namespace State

variable (s : State)

end State

section

variable {s t : State} {core self eventNo h : Nat} {info : HandlerInfo} {isrc : Src}
variable {mapped : Bool} {xs : List Nat} {vfTbl : Nat → Nat} {rc : EBBRC}

end

end EBBLib.EventMgrPrimImp.Register
