import Subtyping.Proofs.Checker.Progress

/-!
# Where a check is asked

The place on the path where a constraint is checked shows in the path of a failure and nowhere else:
what comes before it is put in front of the path that the failure would have otherwise
(`check_eq_after`).
-/

namespace Subtyping

/-- A decision takes notice of the path in failures only. -/
def Decision.Relative {κ : Type} (decide : Decision κ) : Prop :=
  ∀ A p q c σ, decide A (p ++ q) c σ =
    ((decide A q c σ).1.mapFailure (Failure.after p), (decide A q c σ).2)

namespace Goal

variable {κ : Type} {decide : Decision κ}

theorem solve_append (H : decide.Relative) (g : Goal) (A : Assumptions) (p q : Path)
    (σ : Progress κ) :
    g.solve decide A (p ++ q) σ =
      ((g.solve decide A q σ).1.mapFailure (Failure.after p), (g.solve decide A q σ).2) := by
  induction g generalizing A q σ with
  | trivial => rfl
  | impossible reason => rfl
  | nested c => exact H A p q c σ
  | both g h ihg ihh =>
      rw [solve, solve, ihg]
      generalize g.solve decide A q σ = r
      rcases r with ⟨_ | f, τ⟩
      · exact ihh A q τ
      · rfl
  | either g h ihg ihh =>
      rw [solve, solve, ihg]
      generalize g.solve decide A q σ = r
      rcases r with ⟨_ | f, τ⟩
      · rfl
      · dsimp only [Outcome.mapFailure]
        rw [ihh]
        generalize h.solve decide A q τ = r
        rcases r with ⟨_ | f', υ⟩ <;> rfl
  | within step g ih =>
      rw [solve, solve, List.append_assoc]
      exact ih A (q ++ [step]) σ
  | parameters method g ih =>
      rw [solve, solve, ih]
      generalize g.solve decide A q σ = r
      rcases r with ⟨_ | f, τ⟩
      · rfl
      · dsimp only [Outcome.mapFailure]
        rw [Failure.asParameter_after]
  | fresh sub sup body ih => exact ih _ _ _ q _

end Goal

variable {store : Store} {room : Nat}

theorem check_relative : (check store room).Relative := by
  intro A p q c σ
  induction room, A, q, c, σ using check_induct store generalizing p with
  | memo room A q c σ o h => rw [check_of_memo h, Outcome.mapFailure_after_append]
  | assumed room A q c σ h hc => exact check_of_assumed h hc
  | ceiling A q c σ h hc => exact check_zero h hc
  | settled room A q c σ h hc ih r hhits =>
      have hgoal := Goal.solve_append (fun A p q c σ => ih A q c σ p) (store.goal c) (c :: A) p
        (q ++ [.types c]) σ
      -- what is kept starts at the constraint, wherever that was asked
      have hkept : (r.1.mapFailure (Failure.after p)).mapFailure (Failure.dropPath (p ++ q).length) =
          r.1.mapFailure (Failure.dropPath q.length) := by
        rw [Outcome.mapFailure_mapFailure, List.length_append]
        congr 1
        funext f
        exact f.dropPath_after_append p q.length
      rw [check_succ h hc, List.append_assoc, hgoal]
      dsimp only
      rw [if_pos hhits, hkept]
  | tainted room A q c σ h hc ih r hhits =>
      have hgoal := Goal.solve_append (fun A p q c σ => ih A q c σ p) (store.goal c) (c :: A) p
        (q ++ [.types c]) σ
      rw [check_succ h hc, List.append_assoc, hgoal]
      exact if_neg hhits

theorem solve_check_append (g : Goal) (A : Assumptions) (p q : Path) (σ : Progress Kept) :
    g.solve (check store room) A (p ++ q) σ =
      ((g.solve (check store room) A q σ).1.mapFailure (Failure.after p),
        (g.solve (check store room) A q σ).2) :=
  Goal.solve_append check_relative g A p q σ

theorem solve_check_eq_after (g : Goal) (A : Assumptions) (path : Path) (σ : Progress Kept) :
    g.solve (check store room) A path σ =
      ((g.solve (check store room) A [] σ).1.mapFailure (Failure.after path),
        (g.solve (check store room) A [] σ).2) := by
  have h : g.solve (check store room) A (path ++ []) σ = _ := solve_check_append g A path [] σ
  rwa [List.append_nil] at h

/-- A check at a place is the check at the start of a path, seen from that place. -/
theorem check_eq_after (A : Assumptions) (path : Path) (c : Constraint) (σ : Progress Kept) :
    check store room A path c σ =
      ((check store room A [] c σ).1.mapFailure (Failure.after path),
        (check store room A [] c σ).2) :=
  solve_check_eq_after (.nested c) A path σ

end Subtyping
