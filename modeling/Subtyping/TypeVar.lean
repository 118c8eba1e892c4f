import Subtyping.Atom

/-!
# Type variables

A declared variable is known by its name alone. A fresh one keeps the name it was made from and
carries a number that its supply gives out once: numbers are unbounded, so a supply never runs out
and never repeats itself.
-/

namespace Subtyping

structure TypeVar where
  name : Atom
  /-- Zero for a declared variable. -/
  id : Nat := 0
deriving DecidableEq, Inhabited

namespace TypeVar

def isFresh (v : TypeVar) : Bool := v.id != 0

/-- Variables are ordered by name and then by number. -/
instance : LT TypeVar := ⟨fun v w => v.name < w.name ∨ v.name = w.name ∧ v.id < w.id⟩

instance : DecidableLT TypeVar := fun v w =>
  inferInstanceAs (Decidable (v.name < w.name ∨ v.name = w.name ∧ v.id < w.id))

end TypeVar

/-- The source of fresh variables: the number that the next one gets. -/
structure FreshSupply where
  next : Nat := 1
deriving DecidableEq

namespace FreshSupply

/-- How many variables were made so far. -/
def issued (s : FreshSupply) : Nat := s.next - 1

def draw (s : FreshSupply) (name : Atom) : TypeVar × FreshSupply :=
  (⟨name, s.next⟩, ⟨s.next + 1⟩)

/-- A fresh variable of the same name for each of the given ones, in order. -/
def drawAll (s : FreshSupply) : List TypeVar → List TypeVar × FreshSupply
  | [] => ([], s)
  | v :: vs =>
      let (w, s') := s.draw v.name
      let (ws, s'') := s'.drawAll vs
      (w :: ws, s'')

theorem length_drawAll (s : FreshSupply) (vs : List TypeVar) :
    (s.drawAll vs).1.length = vs.length := by
  induction vs generalizing s with
  | nil => rfl
  | cons v vs ih => simp [drawAll, ih]

theorem next_drawAll (s : FreshSupply) (vs : List TypeVar) :
    (s.drawAll vs).2.next = s.next + vs.length := by
  induction vs generalizing s with
  | nil => rfl
  | cons v vs ih =>
      simp only [drawAll, ih, draw, List.length_cons]
      omega

end FreshSupply

end Subtyping
