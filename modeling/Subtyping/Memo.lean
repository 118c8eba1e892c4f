import Subtyping.Outcome

/-!
# Memo

The outcomes of completed checks by constraint. A failure is kept with its path from the
constraint itself, so that it can be shown again from wherever the constraint comes up.
-/

namespace Subtyping

/-- The outcomes of completed checks. -/
structure Memo where
  entries : List (Constraint × Outcome) := []
deriving DecidableEq

namespace Memo

def get? (m : Memo) (c : Constraint) : Option Outcome := Assoc.get? c m.entries

/-- A memo with an outcome for a constraint, in place of what was there. -/
def insert (m : Memo) (c : Constraint) (o : Outcome) : Memo := ⟨(c, o) :: Assoc.erase c m.entries⟩

def size (m : Memo) : Nat := m.entries.length

theorem get?_insert (m : Memo) (c d : Constraint) (o : Outcome) :
    (m.insert c o).get? d = if d = c then some o else m.get? d := by
  by_cases h : d = c <;> simp [get?, insert, Assoc.get?, Assoc.get?_erase, h]

theorem get?_insert_of_ne (m : Memo) {c d : Constraint} (h : d ≠ c) (o : Outcome) :
    (m.insert c o).get? d = m.get? d := by
  rw [get?_insert, if_neg h]

theorem eq_or_get?_of_get?_insert {m : Memo} {c d : Constraint} {o o' : Outcome}
    (h : (m.insert c o).get? d = some o') : d = c ∧ o = o' ∨ m.get? d = some o' := by
  by_cases hd : d = c
  · rw [get?_insert, if_pos hd] at h
    exact .inl ⟨hd, Option.some.inj h⟩
  · rw [get?_insert_of_ne m hd] at h
    exact .inr h

theorem ne_of_get? {m : Memo} {c d : Constraint} {o : Outcome} (hc : m.get? c = none)
    (hd : m.get? d = some o) : d ≠ c := by
  intro he
  rw [he, hc] at hd
  exact nomatch hd

end Memo

end Subtyping
