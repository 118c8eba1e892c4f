import Subtyping.Goal.Basic

/-!
# Solving goals

What a goal can be said to do whatever decides the nested constraints: which of its parts succeed
when it does, what it keeps when each decision keeps it (`solve_advances`), and that two decisions
which answer alike make it answer alike (`solve_simulates`).
-/

namespace Subtyping

/-- Progress seen through a part of what is kept. -/
def Progress.map {κ κ' : Type} (f : κ → κ') (σ : Progress κ) : Progress κ' := ⟨σ.supply, f σ.kept⟩

namespace Goal

variable {κ : Type} {decide : Decision κ} {assumed : Assumptions} {path : Path} {σ : Progress κ}

section Alternatives

variable {g h : Goal} {f : Failure}

theorem solve_both_of_success (hg : (g.solve decide assumed path σ).1 = .success) :
    (both g h).solve decide assumed path σ =
      h.solve decide assumed path (g.solve decide assumed path σ).2 := by
  rw [solve]
  generalize g.solve decide assumed path σ = r at hg ⊢
  rcases r with ⟨_ | f, τ⟩
  · rfl
  · exact nomatch hg

theorem solve_both_of_failure (hg : (g.solve decide assumed path σ).1 = .failure f) :
    (both g h).solve decide assumed path σ = g.solve decide assumed path σ := by
  rw [solve]
  generalize g.solve decide assumed path σ = r at hg ⊢
  rcases r with ⟨_ | f', τ⟩
  · exact nomatch hg
  · rfl

theorem solve_either_of_success (hg : (g.solve decide assumed path σ).1 = .success) :
    (either g h).solve decide assumed path σ = g.solve decide assumed path σ := by
  rw [solve]
  generalize g.solve decide assumed path σ = r at hg ⊢
  rcases r with ⟨_ | f, τ⟩
  · rfl
  · exact nomatch hg

theorem solve_either_of_failure (hg : (g.solve decide assumed path σ).1 = .failure f) :
    (either g h).solve decide assumed path σ =
      let r := h.solve decide assumed path (g.solve decide assumed path σ).2
      (if r.1 = .success then .success else .failure f, r.2) := by
  rw [solve]
  generalize g.solve decide assumed path σ = r at hg ⊢
  rcases r with ⟨_ | f', τ⟩
  · exact nomatch hg
  · obtain rfl : f' = f := by simpa using hg
    dsimp only
    generalize h.solve decide assumed path τ = r
    rcases r with ⟨_ | f'', υ⟩ <;> simp

theorem solve_both_progress :
    ((both g h).solve decide assumed path σ).2 =
      if (g.solve decide assumed path σ).1 = .success then
        (h.solve decide assumed path (g.solve decide assumed path σ).2).2
      else (g.solve decide assumed path σ).2 := by
  cases hg : (g.solve decide assumed path σ).1 with
  | success => rw [solve_both_of_success hg, if_pos rfl]
  | failure f => rw [solve_both_of_failure hg, if_neg (by simp)]

theorem solve_either_progress :
    ((either g h).solve decide assumed path σ).2 =
      if (g.solve decide assumed path σ).1 = .success then (g.solve decide assumed path σ).2
      else (h.solve decide assumed path (g.solve decide assumed path σ).2).2 := by
  cases hg : (g.solve decide assumed path σ).1 with
  | success => rw [solve_either_of_success hg, if_pos rfl]
  | failure f => rw [solve_either_of_failure hg, if_neg (by simp)]

end Alternatives

section Success

theorem solve_both_eq_success_iff {g h : Goal} :
    ((both g h).solve decide assumed path σ).1 = .success ↔
      (g.solve decide assumed path σ).1 = .success ∧
        (h.solve decide assumed path (g.solve decide assumed path σ).2).1 = .success := by
  rw [solve]
  generalize g.solve decide assumed path σ = r
  rcases r with ⟨_ | f, τ⟩ <;> simp

theorem solve_either_eq_success_iff {g h : Goal} :
    ((either g h).solve decide assumed path σ).1 = .success ↔
      (g.solve decide assumed path σ).1 = .success ∨
        (h.solve decide assumed path (g.solve decide assumed path σ).2).1 = .success := by
  rw [solve]
  generalize g.solve decide assumed path σ = r
  rcases r with ⟨_ | f, τ⟩
  · simp
  · dsimp only
    generalize h.solve decide assumed path τ = r'
    rcases r' with ⟨_ | f', υ⟩ <;> simp

theorem solve_parameters_eq_success_iff {method : Atom} {g : Goal} :
    ((parameters method g).solve decide assumed path σ).1 = .success ↔
      (g.solve decide assumed path σ).1 = .success := by
  rw [solve]
  exact Outcome.mapFailure_eq_success_iff

theorem exists_solve_eq_success_of_all {gs : List Goal}
    (h : ((all gs).solve decide assumed path σ).1 = .success) {g : Goal} (hg : g ∈ gs) :
    ∃ τ, (g.solve decide assumed path τ).1 = .success := by
  induction gs generalizing σ with
  | nil => exact absurd hg List.not_mem_nil
  | cons g' gs ih =>
      have hboth := solve_both_eq_success_iff.mp h
      rcases List.mem_cons.mp hg with rfl | hg
      · exact ⟨σ, hboth.1⟩
      · exact ih hboth.2 hg

end Success

section Progress

/-- What every decision does to the progress, whatever it is, a goal does. Assumptions that are only
made inside the goal may be left out in the end. -/
theorem solve_advances {R : Assumptions → Progress κ → Progress κ → Prop}
    (hrefl : ∀ A σ, R A σ σ) (htrans : ∀ A σ τ υ, R A σ τ → R A τ υ → R A σ υ)
    (hdraw : ∀ A B σ τ s, σ.supply.next ≤ FreshSupply.next s → R (B ++ A) { σ with supply := s } τ →
      R A σ τ)
    (hdecide : ∀ A path c σ, R A σ (decide A path c σ).2) (g : Goal) (assumed : Assumptions)
    (path : Path) (σ : Progress κ) : R assumed σ (g.solve decide assumed path σ).2 := by
  induction g generalizing assumed path σ with
  | trivial => exact hrefl _ _
  | impossible reason => exact hrefl _ _
  | nested c => exact hdecide assumed path c σ
  | both g h ihg ihh =>
      have hg := ihg assumed path σ
      rw [solve_both_progress]
      split
      · exact htrans _ _ _ _ hg (ihh assumed path _)
      · exact hg
  | either g h ihg ihh =>
      have hg := ihg assumed path σ
      rw [solve_either_progress]
      split
      · exact hg
      · exact htrans _ _ _ _ hg (ihh assumed path _)
  | within step g ih => exact ih assumed (path ++ [step]) σ
  | parameters method g ih => exact ih assumed path σ
  | fresh sub sup body ih =>
      have hle : σ.supply.next ≤ ((σ.supply.drawAll sub).2.drawAll sup).2.next := by
        rw [FreshSupply.next_drawAll, FreshSupply.next_drawAll]
        omega
      exact hdraw _ _ _ _ _ hle (ih _ _ _ path _)

theorem next_le_next_solve
    (hdecide : ∀ A path c (σ : Progress κ), σ.supply.next ≤ (decide A path c σ).2.supply.next)
    (g : Goal) (assumed : Assumptions) (path : Path) (σ : Progress κ) :
    σ.supply.next ≤ (g.solve decide assumed path σ).2.supply.next := by
  refine solve_advances (R := fun _ σ τ => σ.supply.next ≤ τ.supply.next) ?_ ?_ ?_ hdecide g assumed
    path σ
  · exact fun _ _ => Nat.le_refl _
  · exact fun _ _ _ _ => Nat.le_trans
  · exact fun _ _ _ _ _ hle hστ => Nat.le_trans hle hστ

end Progress

section Simulation

variable {κ' : Type}

/-- If one decision is another one seen through a part of what is kept, so are the goals. -/
theorem solve_simulates {decide' : Decision κ'} {f : κ → κ'}
    (H : ∀ A path c σ, decide' A path c (Progress.map f σ) =
      ((decide A path c σ).1, Progress.map f (decide A path c σ).2))
    (g : Goal) (assumed : Assumptions) (path : Path) (σ : Progress κ) :
    g.solve decide' assumed path (Progress.map f σ) =
      ((g.solve decide assumed path σ).1, Progress.map f (g.solve decide assumed path σ).2) := by
  induction g generalizing assumed path σ with
  | trivial => rfl
  | impossible reason => rfl
  | nested c => exact H assumed path c σ
  | both g h ihg ihh =>
      rw [solve, solve, ihg]
      generalize g.solve decide assumed path σ = r
      rcases r with ⟨_ | f, τ⟩
      · exact ihh assumed path τ
      · rfl
  | either g h ihg ihh =>
      rw [solve, solve, ihg]
      generalize g.solve decide assumed path σ = r
      rcases r with ⟨_ | f, τ⟩
      · rfl
      · dsimp only
        rw [ihh]
        generalize h.solve decide assumed path τ = r
        rcases r with ⟨_ | f', υ⟩ <;> rfl
  | within step g ih => exact ih assumed (path ++ [step]) σ
  | parameters method g ih =>
      rw [solve, solve, ih]
  | fresh sub sup body ih =>
      exact ih (σ.supply.drawAll sub).1 ((σ.supply.drawAll sub).2.drawAll sup).1 _ path
        { σ with supply := ((σ.supply.drawAll sub).2.drawAll sup).2 }

end Simulation

end Goal

end Subtyping
