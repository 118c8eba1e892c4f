import Subtyping.Signature.Basic

/-!
# Interfaces

An interface is the method table of one type: each method once, in the order of declaration, with
its overloads. A template is such a table over type parameters and placeholders, and makes the
interface of a type once these are known.
-/

namespace Subtyping

/-- A method with its overloads in the order of declaration. -/
structure Method where
  name : Atom
  overloads : List Signature
deriving DecidableEq

structure Interface where
  methods : List Method := []
deriving DecidableEq

def Interface.method? (i : Interface) (name : Atom) : Option Method :=
  i.methods.find? (·.name == name)

/-- A method table over type parameters and placeholders. -/
structure Template where
  name : Atom
  typeParams : List TypeVar := []
  methods : List Method := []
deriving DecidableEq

namespace Template

/-- A template with a method, in the place of one that has the same name. -/
def withMethod (t : Template) (m : Method) : Template :=
  if t.methods.any (·.name == m.name) then
    { t with methods := t.methods.map fun n => if n.name = m.name then m else n }
  else { t with methods := t.methods ++ [m] }

/-- The substitution that makes a template's table that of one type. Type parameters without an
argument stand for the unknown type, and arguments without a type parameter are dropped. -/
def binding (t : Template) (self : Ty) (args : List Ty) (inst : Ty) (singleton : Option Ty) :
    Substitution :=
  { Substitution.pairing t.typeParams (args.rightpad t.typeParams.length .any) with
    self := some self, inst := some inst, singleton }

/-- The method table of one type. -/
def instantiate (t : Template) (self : Ty) (args : List Ty) (inst : Ty)
    (singleton : Option Ty) : Interface :=
  let s := t.binding self args inst singleton
  ⟨t.methods.map fun m => { m with overloads := m.overloads.map (Signature.subst s) }⟩

end Template

end Subtyping
