/-!
# Atoms

A name is handled as a 32-bit number, so comparing two names never looks at their text.
-/

namespace Subtyping

/-- The number that stands for an interned name. -/
structure Atom where
  index : UInt32
deriving DecidableEq, Inhabited

namespace Atom

/-- The atom that stands for no name. -/
def none : Atom := ⟨0⟩

def isNone (a : Atom) : Bool := a == none

/-- The atom at a position, taken modulo the width of an atom. -/
def ofPosition (n : Nat) : Atom := ⟨n.toUInt32⟩

def position (a : Atom) : Nat := a.index.toNat

instance : LT Atom := ⟨fun a b => a.index < b.index⟩

instance : DecidableLT Atom := fun a b => inferInstanceAs (Decidable (a.index < b.index))

instance : Ord Atom := ⟨fun a b => compare a.index b.index⟩

theorem position_ofPosition {n : Nat} (h : n < UInt32.size) : (ofPosition n).position = n := by
  simpa [position, ofPosition, UInt32.size] using h

theorem lt_iff (a b : Atom) : a < b ↔ a.position < b.position := UInt32.lt_iff_toNat_lt

theorem position_inj {a b : Atom} : a.position = b.position ↔ a = b := by
  cases a; cases b; simp [position, UInt32.toNat_inj]

instance : Trans (α := Atom) (· < ·) (· < ·) (· < ·) where
  trans hab hbc := (lt_iff _ _).mpr (Nat.lt_trans ((lt_iff _ _).mp hab) ((lt_iff _ _).mp hbc))

instance : Std.Asymm (α := Atom) (· < ·) where
  asymm a b hab hba := Nat.lt_asymm ((lt_iff a b).mp hab) ((lt_iff b a).mp hba)

instance : Std.Trichotomous (α := Atom) (· < ·) where
  trichotomous a b hab hba :=
    position_inj.mp (Nat.le_antisymm (Nat.not_lt.mp fun h => hba ((lt_iff b a).mpr h))
      (Nat.not_lt.mp fun h => hab ((lt_iff a b).mpr h)))

end Atom

end Subtyping
