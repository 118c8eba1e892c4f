import Subtyping.Goal.Rules
import Subtyping.Proofs.Goal.Solve

/-!
# What a goal asks for

The nested constraints of a goal depend on the variables that are made for it. A goal may ask for a
constraint if it does so at variables of some supply from the given one on, since other parts of the
goal can have made variables before (`Asks`). Nothing but the decisions of such constraints matters
to what is kept (`solve_kept_eq`).
-/

namespace Subtyping

namespace Goal

/-- Whether a goal may ask for a constraint, and which supply may be left then. -/
def Asks : Goal → FreshSupply → Constraint → FreshSupply → Prop
  | trivial, _, _, _ => False
  | impossible _, _, _, _ => False
  | nested c, s, d, s' => d = c ∧ s.next ≤ s'.next
  | both g h, s, d, s' => g.Asks s d s' ∨ h.Asks s d s'
  | either g h, s, d, s' => g.Asks s d s' ∨ h.Asks s d s'
  | within _ g, s, d, s' => g.Asks s d s'
  | parameters _ g, s, d, s' => g.Asks s d s'
  | fresh sub sup body, s, d, s' => ∃ t : FreshSupply, s.next ≤ t.next ∧
      (body (t.drawAll sub).1 ((t.drawAll sub).2.drawAll sup).1).Asks
        ((t.drawAll sub).2.drawAll sup).2 d s'

theorem Asks.mono {g : Goal} {s t : FreshSupply} {d : Constraint} {s' : FreshSupply}
    (h : g.Asks t d s') (hle : s.next ≤ t.next) : g.Asks s d s' := by
  induction g generalizing s t with
  | trivial => exact h
  | impossible reason => exact h
  | nested c => exact ⟨h.1, Nat.le_trans hle h.2⟩
  | both g h' ihg ihh => exact h.imp (ihg · hle) (ihh · hle)
  | either g h' ihg ihh => exact h.imp (ihg · hle) (ihh · hle)
  | within step g ih => exact ih h hle
  | parameters method g ih => exact ih h hle
  | fresh sub sup body ih =>
      obtain ⟨u, hu, hbody⟩ := h
      exact ⟨u, Nat.le_trans hle hu, hbody⟩

section Kept

variable {κ β : Type} {decide : Decision κ} {f : κ → β}

theorem solve_kept_eq
    (hmono : ∀ A path c (σ : Progress κ), σ.supply.next ≤ (decide A path c σ).2.supply.next)
    (g : Goal) (assumed : Assumptions) (path : Path) (σ : Progress κ)
    (hasks : ∀ A path d (τ : Progress κ), g.Asks σ.supply d τ.supply → assumed ⊆ A →
      f (decide A path d τ).2.kept = f τ.kept) :
    f (g.solve decide assumed path σ).2.kept = f σ.kept := by
  induction g generalizing assumed path σ with
  | trivial => rfl
  | impossible reason => rfl
  | nested c => exact hasks assumed path c σ ⟨rfl, Nat.le_refl _⟩ (List.Subset.refl _)
  | both g h ihg ihh =>
      have hg := ihg assumed path σ fun A path d τ hd => hasks A path d τ (.inl hd)
      have hle := next_le_next_solve hmono g assumed path σ
      rw [solve_both_progress]
      split
      · have hh := ihh assumed path _ fun A path d υ hd => hasks A path d υ (.inr (hd.mono hle))
        exact hh.trans hg
      · exact hg
  | either g h ihg ihh =>
      have hg := ihg assumed path σ fun A path d τ hd => hasks A path d τ (.inl hd)
      have hle := next_le_next_solve hmono g assumed path σ
      rw [solve_either_progress]
      split
      · exact hg
      · have hh := ihh assumed path _ fun A path d υ hd => hasks A path d υ (.inr (hd.mono hle))
        exact hh.trans hg
  | within step g ih => exact ih assumed (path ++ [step]) σ hasks
  | parameters method g ih => exact ih assumed path σ hasks
  | fresh sub sup body ih =>
      apply ih
      -- below, the equalities of the drawn variables are assumed besides
      intro A path d τ hd hsub
      apply hasks A path d τ ⟨σ.supply, Nat.le_refl _, hd⟩
      exact fun a ha => hsub (List.mem_append_right _ ha)

end Kept

end Goal

end Subtyping
