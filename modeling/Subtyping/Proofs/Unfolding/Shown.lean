import Subtyping.Proofs.Relabel.Goal

/-!
# Goals as propositions

`Goal.Shown` reads a goal as a proposition about its nested constraints. The supply only tells the
fresh variables of a goal apart from all others, so what is shown at one supply is shown at every
other one up to the labels (`Relabels.shown_iff`).
-/

namespace Subtyping

/-- Whether a goal is shown when it is said which constraints hold at a supply and under
assumptions. -/
def Goal.Shown (holds : FreshSupply → Assumptions → Constraint → Prop) :
    Goal → FreshSupply → Assumptions → Prop
  | trivial, _, _ => True
  | impossible _, _, _ => False
  | nested c, s, assumed => holds s assumed c
  | both g h, s, assumed => g.Shown holds s assumed ∧ h.Shown holds s assumed
  | either g h, s, assumed => g.Shown holds s assumed ∨ h.Shown holds s assumed
  | within _ g, s, assumed => g.Shown holds s assumed
  | parameters _ g, s, assumed => g.Shown holds s assumed
  | fresh sub sup body, s, assumed =>
      let (vs, s) := s.drawAll sub
      let (ws, s) := s.drawAll sup
      (body vs ws).Shown holds s (equalities vs ws ++ assumed)

theorem Goal.Shown.mono {holds holds' : FreshSupply → Assumptions → Constraint → Prop}
    (H : ∀ s A B c, A ⊆ B → holds s A c → holds' s B c) {g : Goal} {s : FreshSupply}
    {A B : Assumptions} (hAB : A ⊆ B) (h : g.Shown holds s A) : g.Shown holds' s B := by
  induction g generalizing s A B with
  | trivial => trivial
  | impossible reason => exact h
  | nested c => exact H s A B c hAB h
  | both g k ihg ihk => exact ⟨ihg hAB h.1, ihk hAB h.2⟩
  | either g k ihg ihk => exact h.imp (ihg hAB) (ihk hAB)
  | within step g ih => exact ih hAB h
  | parameters method g ih => exact ih hAB h
  | fresh sub sup body ih =>
      apply ih _ _ _ h
      intro c hc
      rcases List.mem_append.mp hc with hc | hc
      · exact List.mem_append_left _ hc
      · exact List.mem_append_right _ (hAB hc)

/-- The labelling takes the variables that the first supply gives out to those of the second. -/
structure Moves (ρ : TypeVar → TypeVar) (s s' : FreshSupply) : Prop where
  injective : Function.Injective ρ
  name : ∀ v, (ρ v).name = v.name
  next : ∀ a i, ρ ⟨a, s.next + i⟩ = ⟨a, s'.next + i⟩

/-- The second assumptions are the first ones with new labels. -/
def Agrees (ρ : TypeVar → TypeVar) (A A' : Assumptions) : Prop :=
  ∀ c, c ∈ A ↔ c.relabel ρ ∈ A'

section Drawing

variable {ρ : TypeVar → TypeVar} {s s' : FreshSupply}

theorem Moves.draw (h : Moves ρ s s') (a : Atom) :
    ρ (s.draw a).1 = (s'.draw a).1 ∧ Moves ρ (s.draw a).2 (s'.draw a).2 := by
  refine ⟨h.next a 0, h.injective, h.name, fun b i => ?_⟩
  have := h.next b (1 + i)
  rwa [← Nat.add_assoc, ← Nat.add_assoc] at this

theorem Moves.drawAll (h : Moves ρ s s') (vs : List TypeVar) :
    (s.drawAll vs).1.map ρ = (s'.drawAll (vs.map ρ)).1 ∧
      Moves ρ (s.drawAll vs).2 (s'.drawAll (vs.map ρ)).2 := by
  induction vs generalizing s s' with
  | nil => exact ⟨rfl, h⟩
  | cons v vs ih =>
      obtain ⟨hw, hnext⟩ := h.draw v.name
      obtain ⟨hws, hlast⟩ := ih hnext
      simp only [List.map_cons, FreshSupply.drawAll, h.name]
      exact ⟨by rw [hw, hws], hlast⟩

theorem equalities_map (ρ : TypeVar → TypeVar) (vs ws : List TypeVar) :
    equalities (vs.map ρ) (ws.map ρ) = (equalities vs ws).map (Constraint.relabel ρ) := by
  rw [equalities, equalities, List.zip_map, List.flatMap_map, List.map_flatMap]
  rfl

theorem Agrees.equalities_append (hρ : Function.Injective ρ) {A A' : Assumptions}
    (h : Agrees ρ A A') (vs ws : List TypeVar) :
    Agrees ρ (equalities vs ws ++ A) (equalities (vs.map ρ) (ws.map ρ) ++ A') := by
  intro c
  rw [List.mem_append, List.mem_append, equalities_map, h c,
    List.mem_map_of_injective (Constraint.relabel_injective hρ)]

end Drawing

/-- A relabelled goal is shown where the goal is. -/
theorem Goal.Relabels.shown_iff {ρ : TypeVar → TypeVar}
    {holds holds' : FreshSupply → Assumptions → Constraint → Prop}
    (H : ∀ s s' A A' c, Moves ρ s s' → Agrees ρ A A' →
      (holds s A c ↔ holds' s' A' (c.relabel ρ)))
    {g g' : Goal} (hg : g.Relabels ρ g') {s s' : FreshSupply} {A A' : Assumptions}
    (hs : Moves ρ s s') (hA : Agrees ρ A A') : g.Shown holds s A ↔ g'.Shown holds' s' A' := by
  induction hg generalizing s s' A A' with
  | trivial => exact Iff.rfl
  | impossible reason => exact Iff.rfl
  | nested c => exact H s s' A A' c hs hA
  | both _ _ ihg ihh => exact and_congr (ihg hs hA) (ihh hs hA)
  | either _ _ ihg ihh => exact or_congr (ihg hs hA) (ihh hs hA)
  | within step _ ih => exact ih hs hA
  | parameters method _ ih => exact ih hs hA
  | fresh sub sup _ ih =>
      obtain ⟨hvs, hs⟩ := hs.drawAll sub
      obtain ⟨hws, hs⟩ := hs.drawAll sup
      have hA := hA.equalities_append hs.injective (s.drawAll sub).1
        ((s.drawAll sub).2.drawAll sup).1
      have hbody := ih (s.drawAll sub).1 ((s.drawAll sub).2.drawAll sup).1 hs hA
      rwa [hvs, hws] at hbody

end Subtyping
