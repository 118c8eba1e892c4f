import Subtyping.Proofs.Goal.Solve
import Subtyping.Proofs.Unfolding.Holds

/-!
# Deciding levels of rules

`descend` decides what `Holds` says (`descend_eq_success_iff`), although the parts of a goal see the
variables that the parts before them drew. It does not matter whether constraints on the path are
assumed: what is never refuted without such assumptions is never refuted with them, and the other
way round (`forall_holdsTo_iff`).
-/

namespace Subtyping

variable {store : Store} {remember : Bool} {n : Nat}

theorem next_le_next_descend (A : Assumptions) (path : Path) (c : Constraint) (σ : Progress Unit) :
    σ.supply.next ≤ (descend store remember n A path c σ).2.supply.next := by
  induction n generalizing A path c σ with
  | zero => exact Nat.le_refl _
  | succ n ih =>
      rw [descend]
      split
      · exact Nat.le_refl _
      · exact Goal.next_le_next_solve (fun A path c σ => ih A path c σ) _ _ _ _

private theorem above_opened {s : FreshSupply} {A : Assumptions} {c : Constraint}
    (hc : s.Above c.vars) (hA : ∀ a ∈ A, s.Above a.vars) :
    ∀ a ∈ opened remember c A, s.Above a.vars := by
  cases remember with
  | false => exact hA
  | true => exact List.forall_mem_cons.mpr ⟨hc, hA⟩

section Decision

private theorem solve_descend_iff
    (H : ∀ A path c (σ : Progress Unit), σ.supply.Above store.vars → σ.supply.Above c.vars →
      (∀ a ∈ A, σ.supply.Above a.vars) →
        ((descend store remember n A path c σ).1 = .success ↔
          Holds store remember n σ.supply A c))
    {g : Goal} {vs : List TypeVar} (hg : g.Supported vs) (A : Assumptions) (path : Path)
    (σ : Progress Unit) (hstore : σ.supply.Above store.vars) (hvs : σ.supply.Above vs)
    (hA : ∀ a ∈ A, σ.supply.Above a.vars) :
    (g.solve (descend store remember n) A path σ).1 = .success ↔
      g.Shown (Holds store remember n) σ.supply A := by
  have hsupply : ∀ (g : Goal) A path (σ : Progress Unit),
      σ.supply.next ≤ (g.solve (descend store remember n) A path σ).2.supply.next :=
    Goal.next_le_next_solve next_le_next_descend
  induction g generalizing vs A path σ with
  | trivial => exact iff_of_true rfl trivial
  | impossible reason => exact iff_of_false (by simp [Goal.solve]) id
  | nested c => exact H A path c σ hstore (fun v hv => hvs v (hg.mem_of_mem_vars hv)) hA
  | both g h ihg ihh =>
      have hle := hsupply g A path σ
      have hlater := Later.of_le hA hle
      have hfirst := ihg hg.both_left A path σ hstore hvs hA
      have hsecond := ihh hg.both_right A path _ (hstore.of_le hle) (hvs.of_le hle) hlater.after
      rw [← hlater.shown_iff hstore hvs hg.both_right] at hsecond
      rw [Goal.solve_both_eq_success_iff]
      exact and_congr hfirst hsecond
  | either g h ihg ihh =>
      have hle := hsupply g A path σ
      have hlater := Later.of_le hA hle
      have hfirst := ihg hg.either_left A path σ hstore hvs hA
      have hsecond := ihh hg.either_right A path _ (hstore.of_le hle) (hvs.of_le hle) hlater.after
      rw [← hlater.shown_iff hstore hvs hg.either_right] at hsecond
      rw [Goal.solve_either_eq_success_iff]
      exact or_congr hfirst hsecond
  | within step g ih => exact ih hg.within A _ σ hstore hvs hA
  | parameters method g ih =>
      rw [Goal.solve_parameters_eq_success_iff]
      exact ih hg.parameters A path σ hstore hvs hA
  | fresh sub sup body ih =>
      have hdrawn := drawn_drawAll σ.supply sub sup
      have hlater := hdrawn.later hA
      exact ih _ _ (hg.fresh _ _) _ path _ (hstore.of_le hdrawn.le) (hdrawn.above_append hvs) hlater.after

theorem descend_eq_success_iff {A : Assumptions} {path : Path} {c : Constraint}
    {σ : Progress Unit} (hstore : σ.supply.Above store.vars) (hc : σ.supply.Above c.vars)
    (hA : ∀ a ∈ A, σ.supply.Above a.vars) :
    (descend store remember n A path c σ).1 = .success ↔ Holds store remember n σ.supply A c := by
  induction n generalizing A path c σ with
  | zero => exact iff_of_true rfl trivial
  | succ n ih =>
      have hgoal := solve_descend_iff (fun A path c σ => ih) (store.goal_supported c)
        (opened remember c A) path σ hstore (hstore.append hc) (above_opened hc hA)
      rw [descend, Holds, ← hgoal]
      split
      next hmem => exact iff_of_true rfl (.inl hmem)
      next hmem => exact (or_iff_right hmem).symm

end Decision

section Path

private theorem shown_of_shown_remembered
    (H : ∀ {s : FreshSupply} {E A : Assumptions} {c : Constraint}, s.Above store.vars →
      s.Above c.vars → (∀ a ∈ A, s.Above a.vars) → (∀ e ∈ E, s.Above e.vars) →
      (∀ a ∈ A, a ∈ E ∨ Holds store false n s E a) → Holds store true n s A c →
        Holds store false n s E c)
    {g : Goal} {vs : List TypeVar} (hg : g.Supported vs) {s : FreshSupply} {E A : Assumptions}
    (hstore : s.Above store.vars) (hvs : s.Above vs) (hA : ∀ a ∈ A, s.Above a.vars)
    (hE : ∀ e ∈ E, s.Above e.vars) (hAE : ∀ a ∈ A, a ∈ E ∨ Holds store false n s E a)
    (h : g.Shown (Holds store true n) s A) : g.Shown (Holds store false n) s E := by
  induction g generalizing vs s E A with
  | trivial => trivial
  | impossible reason => exact h
  | nested c => exact H hstore (fun v hv => hvs v (hg.mem_of_mem_vars hv)) hA hE hAE h
  | both g k ihg ihk =>
      exact ⟨ihg hg.both_left hstore hvs hA hE hAE h.1, ihk hg.both_right hstore hvs hA hE hAE h.2⟩
  | either g k ihg ihk =>
      exact h.imp (ihg hg.either_left hstore hvs hA hE hAE)
        (ihk hg.either_right hstore hvs hA hE hAE)
  | within step g ih => exact ih hg.within hstore hvs hA hE hAE h
  | parameters method g ih => exact ih hg.parameters hstore hvs hA hE hAE h
  | fresh sub sup body ih =>
      have hdrawn := drawn_drawAll s sub sup
      have hlater := hdrawn.later hE
      refine ih _ _ (hg.fresh _ _) (hstore.of_le hdrawn.le) (hdrawn.above_append hvs)
        (hdrawn.later hA).after hlater.after ?_ h
      intro a ha
      rcases List.mem_append.mp ha with ha | ha
      · exact .inl (List.mem_append_left _ ha)
      · rcases hAE a ha with hae | hholds
        · exact .inl (List.mem_append_right _ hae)
        · exact .inr ((hlater.holds_iff hstore (hA a ha)).mp hholds)

theorem holds_of_holds_remembered {s : FreshSupply} {E A : Assumptions} {c : Constraint}
    (hstore : s.Above store.vars) (hc : s.Above c.vars) (hA : ∀ a ∈ A, s.Above a.vars)
    (hE : ∀ e ∈ E, s.Above e.vars) (hAE : ∀ a ∈ A, a ∈ E ∨ Holds store false n s E a)
    (h : Holds store true n s A c) : Holds store false n s E c := by
  induction n generalizing s E A c with
  | zero => trivial
  | succ n ih =>
      have hbelow : ∀ a ∈ A, a ∈ E ∨ Holds store false n s E a := fun a ha =>
        (hAE a ha).imp_right fun ha => ha.mono (Nat.le_succ n) (List.Subset.refl E)
      -- the constraint itself is one of the assumptions below it, so it is shown to one level less first
      have hself := ih hstore hc hA hE hbelow (h.mono (Nat.le_succ n) (List.Subset.refl A))
      rcases h with hmem | hgoal
      · rcases hAE c hmem with hE | hc
        · exact .inl hE
        · exact hc
      · exact .inr (shown_of_shown_remembered ih (store.goal_supported c) hstore
          (hstore.append hc) (List.forall_mem_cons.mpr ⟨hc, hA⟩) hE
          (List.forall_mem_cons.mpr ⟨.inr hself, hbelow⟩) hgoal)

theorem holds_remembered_of_holds {s : FreshSupply} {A B : Assumptions} {c : Constraint}
    (hAB : A ⊆ B) (h : Holds store false n s A c) : Holds store true n s B c := by
  induction n generalizing s A B c with
  | zero => trivial
  | succ n ih =>
      refine h.imp (fun hc => hAB hc) fun hgoal => ?_
      refine hgoal.mono ?_ (List.subset_cons_of_subset c hAB)
      intro s A B d hsub hd
      exact ih hsub hd

/-- Whether a constraint holds as far as so many levels of rules can tell where a constraint that
comes up again below itself is taken to hold: the check that has its path and no memory. -/
def HoldsAlong (store : Store) (supply : FreshSupply) (levels : Nat) (c : Constraint) : Prop :=
  (descend store true levels [] [] c ⟨supply, ()⟩).1 = .success

instance (store : Store) (supply : FreshSupply) (levels : Nat) (c : Constraint) :
    Decidable (HoldsAlong store supply levels c) :=
  inferInstanceAs (Decidable (_ = _))

variable {s : FreshSupply} {c : Constraint}

theorem holdsTo_iff (hstore : s.Above store.vars) (hc : s.Above c.vars) :
    HoldsTo store s n c ↔ Holds store false n s [] c := by
  rw [HoldsTo, unfold_eq_descend]
  exact descend_eq_success_iff (σ := ⟨s, ()⟩) hstore hc fun _ ha => absurd ha List.not_mem_nil

theorem holdsAlong_iff (hstore : s.Above store.vars) (hc : s.Above c.vars) :
    HoldsAlong store s n c ↔ Holds store true n s [] c := by
  have hnone : ∀ a ∈ ([] : Assumptions), s.Above a.vars := fun a ha => absurd ha List.not_mem_nil
  exact descend_eq_success_iff (σ := ⟨s, ()⟩) hstore hc hnone

/-- Taking the constraints on the path to hold neither adds to what the rules show nor takes
anything away, whatever the number of levels. -/
theorem holdsAlong_iff_holdsTo (hstore : s.Above store.vars) (hc : s.Above c.vars) :
    HoldsAlong store s n c ↔ HoldsTo store s n c := by
  rw [holdsAlong_iff hstore hc, holdsTo_iff hstore hc]
  have hnone : ∀ a ∈ ([] : Assumptions), s.Above a.vars := fun _ ha => absurd ha List.not_mem_nil
  constructor
  · exact holds_of_holds_remembered hstore hc hnone hnone fun _ ha => absurd ha List.not_mem_nil
  · exact holds_remembered_of_holds (List.Subset.refl [])

end Path

end Subtyping
