import Mathlib.Data.Int.Basic
import Mathlib.Tactic.Ring

/-!
# Return codes of EBB calls

`EBBRC` is a signed word in the source: applications return their own values
beside the standard ones, and every nonnegative value is a success.
-/

namespace EBBLib

/-- `typedef intptr_t EBBRC`. -/
abbrev EBBRC := Int

namespace EBBRC

def ok : EBBRC := 0
def genericFailure : EBBRC := -1
def badParameter : EBBRC := -2
def outOfResources : EBBRC := -3
def retry : EBBRC := -4
def notFound : EBBRC := -5

/-- `EBBRC_SUCCESS`. -/
def success (rc : EBBRC) : Bool := 0 ≤ rc

@[simp] theorem success_ok : success ok = true := rfl

end EBBRC

end EBBLib
