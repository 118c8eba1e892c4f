import Subtyping.Ty.Basic

/-!
# Constraints

The question that is asked of two types, and the set of constraints that are taken to hold while
it is answered.
-/

namespace Subtyping

/-- Whether the first type may be used where the second is expected. -/
structure Constraint where
  sub : Ty
  sup : Ty
deriving DecidableEq

/-- Constraints taken to hold. Each is there from where it was assumed onwards, so leaving a place
means going on with the assumptions that were there before. -/
abbrev Assumptions := List Constraint

/-- Both directions between each variable and its counterpart, position by position. -/
def equalities (vs ws : List TypeVar) : Assumptions :=
  (vs.zip ws).flatMap fun e => [⟨.var e.1, .var e.2⟩, ⟨.var e.2, .var e.1⟩]

end Subtyping
