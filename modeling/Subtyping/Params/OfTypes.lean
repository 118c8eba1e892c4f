import Subtyping.Params.Merge
import Subtyping.Substitution

/-!
# Parameter lists of types

The merges of parameter lists whose slots carry types: contents that meet are put into a union for
calls that either list takes, and into an intersection for calls that both take.
-/

namespace Subtyping.Params

def vars (p : Params Ty) : List TypeVar := p.contents.flatMap Ty.vars

def subst (s : Substitution) (p : Params Ty) : Params Ty := p.map (Ty.subst s)

/-- The parameter list for calls that either list takes. -/
def union (p q : Params Ty) : Params Ty := unionWith Ty.or p q

/-- The parameter list for calls that both lists take, if there are any. -/
def inter? (p q : Params Ty) : Option (Params Ty) := interWith? Ty.and p q

end Subtyping.Params
