import Subtyping.Proofs.Goal.Solve

/-!
# The calls of a goal

Solving a goal calls for decisions, each in the state that the ones before it have left (`Calls`).
All that a goal does comes from there: it is solved alike by decisions that answer its calls alike
(`solve_congr`), it keeps what they keep (`solve_keeps`), and each of them stands between its start
and its end (`Calls.between`).
-/

namespace Subtyping

/-- A constraint that is to be decided: under which assumptions, at which place and in which
state. -/
structure Call (κ : Type) where
  assumed : Assumptions
  path : Path
  constraint : Constraint
  progress : Progress κ

def Call.answer {κ : Type} (decide : Decision κ) (x : Call κ) : Outcome × Progress κ :=
  decide x.assumed x.path x.constraint x.progress

namespace Goal

variable {κ : Type}

/-- Whether a call is made while a goal is solved. -/
def Calls (decide : Decision κ) : Goal → Assumptions → Path → Progress κ → Call κ → Prop
  | trivial, _, _, _, _ => False
  | impossible _, _, _, _, _ => False
  | nested c, assumed, path, σ, x => x = ⟨assumed, path, c, σ⟩
  | both g h, assumed, path, σ, x =>
      g.Calls decide assumed path σ x ∨
        (g.solve decide assumed path σ).1 = .success ∧
          h.Calls decide assumed path (g.solve decide assumed path σ).2 x
  | either g h, assumed, path, σ, x =>
      g.Calls decide assumed path σ x ∨
        (g.solve decide assumed path σ).1 ≠ .success ∧
          h.Calls decide assumed path (g.solve decide assumed path σ).2 x
  | within step g, assumed, path, σ, x => g.Calls decide assumed (path ++ [step]) σ x
  | parameters _ g, assumed, path, σ, x => g.Calls decide assumed path σ x
  | fresh sub sup body, assumed, path, σ, x =>
      let (vs, supply) := σ.supply.drawAll sub
      let (ws, supply) := supply.drawAll sup
      (body vs ws).Calls decide (equalities vs ws ++ assumed) path { σ with supply } x

variable {decide : Decision κ} {g : Goal} {assumed : Assumptions} {path : Path} {σ : Progress κ}
  {x : Call κ}

theorem Calls.subset (h : g.Calls decide assumed path σ x) : assumed ⊆ x.assumed := by
  induction g generalizing assumed path σ with
  | trivial => exact h.elim
  | impossible reason => exact h.elim
  | nested c =>
      obtain rfl := h
      exact List.Subset.refl _
  | both g h' ihg ihh => exact h.elim ihg fun h => ihh h.2
  | either g h' ihg ihh => exact h.elim ihg fun h => ihh h.2
  | within step g ih => exact ih h
  | parameters method g ih => exact ih h
  | fresh sub sup body ih => exact fun a ha => ih _ _ h (List.mem_append_right _ ha)

theorem Calls.between {R : Assumptions → Progress κ → Progress κ → Prop} (hrefl : ∀ A σ, R A σ σ)
    (htrans : ∀ A σ τ υ, R A σ τ → R A τ υ → R A σ υ)
    (hdraw : ∀ A B σ τ s, σ.supply.next ≤ FreshSupply.next s → R (B ++ A) { σ with supply := s } τ →
      R A σ τ)
    (hdecide : ∀ A path c σ, R A σ (decide A path c σ).2)
    (h : g.Calls decide assumed path σ x) :
    R assumed σ x.progress ∧ R assumed (x.answer decide).2 (g.solve decide assumed path σ).2 := by
  induction g generalizing assumed path σ with
  | trivial => exact h.elim
  | impossible reason => exact h.elim
  | nested c =>
      obtain rfl := h
      exact ⟨hrefl _ _, hrefl _ _⟩
  | both g h' ihg ihh =>
      have hfirst := solve_advances hrefl htrans hdraw hdecide g assumed path σ
      rw [solve_both_progress]
      rcases h with h | ⟨hsuccess, h⟩
      -- a call in the first goal, after which the second one may be decided
      · obtain ⟨hbefore, hafter⟩ := ihg h
        refine ⟨hbefore, ?_⟩
        split
        · exact htrans _ _ _ _ hafter (solve_advances hrefl htrans hdraw hdecide h' assumed path _)
        · exact hafter
      · obtain ⟨hbefore, hafter⟩ := ihh h
        rw [if_pos hsuccess]
        exact ⟨htrans _ _ _ _ hfirst hbefore, hafter⟩
  | either g h' ihg ihh =>
      have hfirst := solve_advances hrefl htrans hdraw hdecide g assumed path σ
      rw [solve_either_progress]
      rcases h with h | ⟨hfailure, h⟩
      · obtain ⟨hbefore, hafter⟩ := ihg h
        refine ⟨hbefore, ?_⟩
        split
        · exact hafter
        · exact htrans _ _ _ _ hafter (solve_advances hrefl htrans hdraw hdecide h' assumed path _)
      · obtain ⟨hbefore, hafter⟩ := ihh h
        rw [if_neg hfailure]
        exact ⟨htrans _ _ _ _ hfirst hbefore, hafter⟩
  | within step g ih => exact ih h
  | parameters method g ih => exact ih h
  | fresh sub sup body ih =>
      have hle : σ.supply.next ≤ ((σ.supply.drawAll sub).2.drawAll sup).2.next := by
        rw [FreshSupply.next_drawAll, FreshSupply.next_drawAll]
        omega
      obtain ⟨hbefore, hafter⟩ := ih _ _ h
      exact ⟨hdraw _ _ _ _ _ hle hbefore, hdraw _ _ _ _ _ (Nat.le_refl _) hafter⟩

/-- What is true in the beginning and not spoilt by the answer to any call is true at every call and
in the end. -/
theorem solve_keeps {P : Assumptions → Progress κ → Prop}
    (hdraw : ∀ A σ sub sup, P A σ →
      P (equalities (σ.supply.drawAll sub).1 ((σ.supply.drawAll sub).2.drawAll sup).1 ++ A)
        { σ with supply := ((σ.supply.drawAll sub).2.drawAll sup).2 })
    (hforget : ∀ A B σ, P (B ++ A) σ → P A σ)
    (hcall : ∀ x, g.Calls decide assumed path σ x → P x.assumed x.progress →
      P x.assumed (x.answer decide).2)
    (h : P assumed σ) :
    P assumed (g.solve decide assumed path σ).2 ∧
      ∀ x, g.Calls decide assumed path σ x → P x.assumed x.progress := by
  induction g generalizing assumed path σ with
  | trivial => exact ⟨h, fun _ hx => hx.elim⟩
  | impossible reason => exact ⟨h, fun _ hx => hx.elim⟩
  | nested c =>
      refine ⟨hcall ⟨assumed, path, c, σ⟩ rfl h, fun x hx => ?_⟩
      obtain rfl := hx
      exact h
  | both g h' ihg ihh =>
      obtain ⟨hfirst, hcalls⟩ := ihg (fun x hx => hcall x (.inl hx)) h
      rw [solve_both_progress]
      split
      next hsuccess =>
        obtain ⟨hsecond, hcalls'⟩ := ihh (fun x hx => hcall x (.inr ⟨hsuccess, hx⟩)) hfirst
        exact ⟨hsecond, fun x hx => hx.elim (hcalls x) fun hx => hcalls' x hx.2⟩
      next hfailure =>
        exact ⟨hfirst, fun x hx => hx.elim (hcalls x) fun hx => absurd hx.1 hfailure⟩
  | either g h' ihg ihh =>
      obtain ⟨hfirst, hcalls⟩ := ihg (fun x hx => hcall x (.inl hx)) h
      rw [solve_either_progress]
      split
      next hsuccess =>
        exact ⟨hfirst, fun x hx => hx.elim (hcalls x) fun hx => absurd hsuccess hx.1⟩
      next hfailure =>
        obtain ⟨hsecond, hcalls'⟩ := ihh (fun x hx => hcall x (.inr ⟨hfailure, hx⟩)) hfirst
        exact ⟨hsecond, fun x hx => hx.elim (hcalls x) fun hx => hcalls' x hx.2⟩
  | within step g ih => exact ih hcall h
  | parameters method g ih => exact ih hcall h
  | fresh sub sup body ih =>
      obtain ⟨hbody, hcalls⟩ := ih _ _ hcall (hdraw assumed σ sub sup h)
      exact ⟨hforget _ _ _ hbody, hcalls⟩

theorem solve_congr {decide' : Decision κ}
    (h : ∀ x, g.Calls decide assumed path σ x → x.answer decide' = x.answer decide) :
    g.solve decide' assumed path σ = g.solve decide assumed path σ := by
  induction g generalizing assumed path σ with
  | trivial => rfl
  | impossible reason => rfl
  | nested c => exact h ⟨assumed, path, c, σ⟩ rfl
  | both g h' ihg ihh =>
      have hfirst := ihg fun x hx => h x (.inl hx)
      simp only [Calls, solve] at h ⊢
      rw [hfirst]
      generalize g.solve decide assumed path σ = r at h ⊢
      rcases r with ⟨_ | f, τ⟩
      · exact ihh fun x hx => h x (.inr ⟨rfl, hx⟩)
      · rfl
  | either g h' ihg ihh =>
      have hfirst := ihg fun x hx => h x (.inl hx)
      simp only [Calls, solve] at h ⊢
      rw [hfirst]
      generalize g.solve decide assumed path σ = r at h ⊢
      rcases r with ⟨_ | f, τ⟩
      · rfl
      · have hsecond := ihh fun x hx => h x (.inr ⟨by simp, hx⟩)
        dsimp only at hsecond ⊢
        rw [hsecond]
  | within step g ih => exact ih h
  | parameters method g ih =>
      rw [solve, solve, ih h]
  | fresh sub sup body ih => exact ih _ _ h

theorem Calls.congr {decide' : Decision κ}
    (h : ∀ x, g.Calls decide assumed path σ x → x.answer decide' = x.answer decide)
    (hx : g.Calls decide assumed path σ x) : g.Calls decide' assumed path σ x := by
  induction g generalizing assumed path σ with
  | trivial => exact hx
  | impossible reason => exact hx
  | nested c => exact hx
  | both g h' ihg ihh =>
      have hfirst := solve_congr fun x hx => h x (.inl hx)
      rw [Calls, hfirst]
      rcases hx with hx | ⟨hsuccess, hx⟩
      · exact .inl (ihg (fun x hx => h x (.inl hx)) hx)
      · exact .inr ⟨hsuccess, ihh (fun x hx => h x (.inr ⟨hsuccess, hx⟩)) hx⟩
  | either g h' ihg ihh =>
      have hfirst := solve_congr fun x hx => h x (.inl hx)
      rw [Calls, hfirst]
      rcases hx with hx | ⟨hfailure, hx⟩
      · exact .inl (ihg (fun x hx => h x (.inl hx)) hx)
      · exact .inr ⟨hfailure, ihh (fun x hx => h x (.inr ⟨hfailure, hx⟩)) hx⟩
  | within step g ih => exact ih h hx
  | parameters method g ih => exact ih h hx
  | fresh sub sup body ih => exact ih _ _ h hx

end Goal

end Subtyping
