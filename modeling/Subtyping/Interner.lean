import Subtyping.Atom
import Subtyping.Assoc.Basic

/-!
# Interner

The names behind the atoms, kept in two tables, one for each direction: a name keeps the atom of the
place at which it was first met, and no name is ever removed. `names_intern` and `atom?_intern` say
what interning does to the tables.
-/

namespace Subtyping

/-- The interned names in the order of their atoms, and the atom of each name. -/
structure Interner where
  names : List String
  atoms : List (String × Atom)
deriving DecidableEq

namespace Interner

def empty : Interner := ⟨[], []⟩

/-- Tables that hold the empty name only, at the atom for no name. -/
def new : Interner := ⟨[""], [("", .none)]⟩

def size (i : Interner) : Nat := i.names.length

/-- Whether at most one name is interned. -/
def isEmpty (i : Interner) : Bool := i.size ≤ 1

def atom? (i : Interner) (name : String) : Option Atom := Assoc.get? name i.atoms

def name? (i : Interner) (a : Atom) : Option String := i.names[a.position]?

/-- The name behind an atom, empty for an atom that was never given out. -/
def name (i : Interner) (a : Atom) : String := (i.name? a).getD ""

/-- The atom of a name, which joins both tables if it is new. -/
def intern (i : Interner) (name : String) : Atom × Interner :=
  match i.atom? name with
  | some a => (a, i)
  | none =>
      let a := Atom.ofPosition i.size
      (a, ⟨i.names ++ [name], (name, a) :: i.atoms⟩)

def internAll (i : Interner) (names : List String) : Interner :=
  names.foldl (fun i name => (i.intern name).2) i

/-- Names that nearly every set of signatures mentions. -/
def commonNames : List String :=
  ["BasicObject", "Object", "Kernel", "Comparable", "Enumerable", "Integer", "Float", "Numeric",
   "String", "Symbol", "Array", "Hash", "Range", "Proc", "NilClass", "TrueClass", "FalseClass",
   "initialize", "new", "each", "map", "select", "to_s", "to_a", "to_h", "to_proc", "hash",
   "eql?", "==", "===", "<=>", "[]", "[]=", "+", "-", "call", "yield", "size", "length",
   "T", "U", "K", "V", "A", "Elem"]

def internCommon (i : Interner) : Interner := i.internAll commonNames

theorem names_intern (i : Interner) (name : String) :
    (i.intern name).2.names = if i.atom? name = none then i.names ++ [name] else i.names := by
  unfold intern
  cases i.atom? name <;> rfl

/-- A name has the atom that it was interned at, and all others keep theirs. -/
theorem atom?_intern (i : Interner) (name other : String) :
    (i.intern name).2.atom? other =
      if other = name then some (i.intern name).1 else i.atom? other := by
  unfold intern
  cases h : i.atom? name with
  | some a =>
      by_cases ho : other = name
      · rw [if_pos ho, ho, h]
      · rw [if_neg ho]
  | none => rfl

theorem intern_of_atom? {i : Interner} {name : String} {a : Atom} (h : i.atom? name = some a) :
    i.intern name = (a, i) := by
  rw [intern, h]

theorem intern_fst_of_atom?_eq_none {i : Interner} {name : String} (h : i.atom? name = none) :
    (i.intern name).1 = Atom.ofPosition i.size := by
  rw [intern, h]

end Interner

end Subtyping
