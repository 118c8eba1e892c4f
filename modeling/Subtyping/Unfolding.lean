import Subtyping.Goal.Rules

/-!
# Unfolding the rules

The rules taken by themselves: `unfold n` decides a constraint by unfolding them `n` levels deep
and lets everything below hold. It keeps nothing and assumes nothing but that the fresh variables
of two overloads are equal position by position.
-/

namespace Subtyping

/-- The decision of a constraint by so many levels of rules. -/
def unfold (store : Store) (levels : Nat) : Decision Unit := fun assumed path c σ =>
  match levels with
  | 0 => (.success, σ)
  | levels + 1 =>
      if c ∈ assumed then (.success, σ)
      else (store.goal c).solve (unfold store levels) assumed path σ

theorem unfold_zero (store : Store) (assumed : Assumptions) (path : Path) (c : Constraint)
    (σ : Progress Unit) : unfold store 0 assumed path c σ = (.success, σ) := rfl

theorem unfold_succ (store : Store) (levels : Nat) (assumed : Assumptions) (path : Path)
    (c : Constraint) (σ : Progress Unit) :
    unfold store (levels + 1) assumed path c σ =
      if c ∈ assumed then (.success, σ)
      else (store.goal c).solve (unfold store levels) assumed path σ := rfl

/-- Whether a constraint holds as far as so many levels of rules can tell. -/
def HoldsTo (store : Store) (supply : FreshSupply) (levels : Nat) (c : Constraint) : Prop :=
  (unfold store levels [] [] c ⟨supply, ()⟩).1 = .success

instance (store : Store) (supply : FreshSupply) (levels : Nat) (c : Constraint) :
    Decidable (HoldsTo store supply levels c) :=
  inferInstanceAs (Decidable (_ = _))

end Subtyping
