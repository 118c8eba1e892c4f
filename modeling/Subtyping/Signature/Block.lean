import Subtyping.Params.OfTypes

/-!
# Blocks

A method may take a block: a callback with parameters and a result of its own, which a call must
or may supply.
-/

namespace Subtyping

/-- The callback that a method takes. -/
structure Block where
  params : Params Ty
  result : Ty
  optional : Bool := false
deriving DecidableEq

namespace Block

/-- The same block, which a call may leave out. -/
def toOptional (b : Block) : Block := { b with optional := true }

def mapTypes (f : Ty → Ty) (b : Block) : Block :=
  { b with params := b.params.map f, result := f b.result }

def subst (s : Substitution) (b : Block) : Block := b.mapTypes (Ty.subst s)

def types (b : Block) : List Ty := b.params.contents ++ [b.result]

def vars (b : Block) : List TypeVar := b.types.flatMap Ty.vars

/-- The block that takes what either block takes and gives what either gives. -/
def combine (b c : Block) : Block where
  params := b.params.union c.params
  result := b.result.or c.result
  optional := b.optional || c.optional

end Block

end Subtyping
