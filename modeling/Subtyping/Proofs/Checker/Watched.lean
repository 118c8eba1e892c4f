import Subtyping.Proofs.Checker.Progress

/-!
# Watching a check

A watched check is the check (`check_eq_watch`) that also writes down which constraints it took to hold
only because they were being checked further up the path.
-/

namespace Subtyping

/-- What is kept of a watched check. -/
structure Watched where
  kept : Kept := {}
  /-- The constraints from the path that were taken to hold. -/
  granted : List Constraint := []
deriving DecidableEq

/-- The check of a constraint, watched. -/
def watch (store : Store) (room : Nat) : Decision Watched := fun assumed path c σ =>
  match σ.kept.kept.memo.get? c with
  | some o => (o.mapFailure (Failure.after path), σ)
  | none =>
      if c ∈ assumed then
        if .types c ∈ path then (.success, { σ with kept.granted := c :: σ.kept.granted })
        else (.success, σ)
      else match room with
        | 0 =>
            (.failure ⟨.depthExceeded, path⟩,
              { σ with kept.kept.ceilingHits := σ.kept.kept.ceilingHits + 1 })
        | room + 1 =>
            let (o, τ) :=
              (store.goal c).solve (watch store room) (c :: assumed) (path ++ [.types c]) σ
            if τ.kept.kept.ceilingHits = σ.kept.kept.ceilingHits then
              let relative := o.mapFailure (Failure.dropPath path.length)
              (o, { τ with kept.kept.memo := τ.kept.kept.memo.insert c relative })
            else (o, τ)

section Equations

variable {store : Store} {room : Nat} {A : Assumptions} {path : Path} {c : Constraint}
  {σ : Progress Watched}

theorem watch_of_memo {o : Outcome} (h : σ.kept.kept.memo.get? c = some o) :
    watch store room A path c σ = (o.mapFailure (Failure.after path), σ) := by
  unfold watch
  simp [h]

theorem watch_of_granted (h : σ.kept.kept.memo.get? c = none) (hc : c ∈ A)
    (hpath : .types c ∈ path) :
    watch store room A path c σ = (.success, { σ with kept.granted := c :: σ.kept.granted }) := by
  unfold watch
  simp [h, hc, hpath]

theorem watch_of_assumed (h : σ.kept.kept.memo.get? c = none) (hc : c ∈ A)
    (hpath : .types c ∉ path) : watch store room A path c σ = (.success, σ) := by
  unfold watch
  simp [h, hc, hpath]

theorem watch_zero (h : σ.kept.kept.memo.get? c = none) (hc : c ∉ A) :
    watch store 0 A path c σ =
      (.failure ⟨.depthExceeded, path⟩,
        { σ with kept.kept.ceilingHits := σ.kept.kept.ceilingHits + 1 }) := by
  unfold watch
  simp [h, hc]

theorem watch_succ (h : σ.kept.kept.memo.get? c = none) (hc : c ∉ A) :
    watch store (room + 1) A path c σ =
      let r := (store.goal c).solve (watch store room) (c :: A) (path ++ [.types c]) σ
      if r.2.kept.kept.ceilingHits = σ.kept.kept.ceilingHits then
        (r.1, { r.2 with
          kept.kept.memo :=
            r.2.kept.kept.memo.insert c (r.1.mapFailure (Failure.dropPath path.length)) })
      else r := by
  conv => lhs; unfold watch
  simp [h, hc]

end Equations

@[elab_as_elim]
theorem watch_induct (store : Store)
    {motive : Nat → Assumptions → Path → Constraint → Progress Watched →
      Outcome × Progress Watched → Prop}
    (memo : ∀ room A path c (σ : Progress Watched) o, σ.kept.kept.memo.get? c = some o →
      motive room A path c σ (o.mapFailure (Failure.after path), σ))
    (granted : ∀ room A path c (σ : Progress Watched), σ.kept.kept.memo.get? c = none → c ∈ A →
      .types c ∈ path →
        motive room A path c σ (.success, { σ with kept.granted := c :: σ.kept.granted }))
    (assumed : ∀ room A path c (σ : Progress Watched), σ.kept.kept.memo.get? c = none → c ∈ A →
      .types c ∉ path → motive room A path c σ (.success, σ))
    (ceiling : ∀ A path c (σ : Progress Watched), σ.kept.kept.memo.get? c = none → c ∉ A →
      motive 0 A path c σ (.failure ⟨.depthExceeded, path⟩,
        { σ with kept.kept.ceilingHits := σ.kept.kept.ceilingHits + 1 }))
    (settled : ∀ room A path c (σ : Progress Watched), σ.kept.kept.memo.get? c = none → c ∉ A →
      (∀ A path c σ, motive room A path c σ (watch store room A path c σ)) →
      let r := (store.goal c).solve (watch store room) (c :: A) (path ++ [.types c]) σ
      r.2.kept.kept.ceilingHits = σ.kept.kept.ceilingHits →
        motive (room + 1) A path c σ (r.1, { r.2 with
          kept.kept.memo :=
            r.2.kept.kept.memo.insert c (r.1.mapFailure (Failure.dropPath path.length)) }))
    (tainted : ∀ room A path c (σ : Progress Watched), σ.kept.kept.memo.get? c = none → c ∉ A →
      (∀ A path c σ, motive room A path c σ (watch store room A path c σ)) →
      let r := (store.goal c).solve (watch store room) (c :: A) (path ++ [.types c]) σ
      r.2.kept.kept.ceilingHits ≠ σ.kept.kept.ceilingHits → motive (room + 1) A path c σ r)
    (room : Nat) (A : Assumptions) (path : Path) (c : Constraint) (σ : Progress Watched) :
    motive room A path c σ (watch store room A path c σ) := by
  induction room generalizing A path c σ with
  | zero =>
      cases h : σ.kept.kept.memo.get? c with
      | some o =>
          rw [watch_of_memo h]
          exact memo 0 A path c σ o h
      | none =>
          by_cases hc : c ∈ A
          · by_cases hpath : .types c ∈ path
            · rw [watch_of_granted h hc hpath]
              exact granted 0 A path c σ h hc hpath
            · rw [watch_of_assumed h hc hpath]
              exact assumed 0 A path c σ h hc hpath
          · rw [watch_zero h hc]
            exact ceiling A path c σ h hc
  | succ room ih =>
      cases h : σ.kept.kept.memo.get? c with
      | some o =>
          rw [watch_of_memo h]
          exact memo (room + 1) A path c σ o h
      | none =>
          by_cases hc : c ∈ A
          · by_cases hpath : .types c ∈ path
            · rw [watch_of_granted h hc hpath]
              exact granted (room + 1) A path c σ h hc hpath
            · rw [watch_of_assumed h hc hpath]
              exact assumed (room + 1) A path c σ h hc hpath
          · rw [watch_succ h hc]
            dsimp only
            split
            next hhits => exact settled room A path c σ h hc ih hhits
            next hhits => exact tainted room A path c σ h hc ih hhits

variable {store : Store} {room : Nat}

/-- The check is what is left of the watched check without what was written down. -/
theorem check_eq_watch (A : Assumptions) (path : Path) (c : Constraint) (σ : Progress Watched) :
    check store room A path c (σ.map Watched.kept) =
      ((watch store room A path c σ).1, (watch store room A path c σ).2.map Watched.kept) := by
  induction room, A, path, c, σ using watch_induct store with
  | memo room A path c σ o h => exact check_of_memo h
  | granted room A path c σ h hc hpath => exact check_of_assumed h hc
  | assumed room A path c σ h hc hpath => exact check_of_assumed h hc
  | ceiling A path c σ h hc => exact check_zero h hc
  | settled room A path c σ h hc ih r hhits =>
      have hgoal := Goal.solve_simulates ih (store.goal c) (c :: A) (path ++ [.types c]) σ
      rw [check_succ h hc, hgoal]
      exact if_pos hhits
  | tainted room A path c σ h hc ih r hhits =>
      have hgoal := Goal.solve_simulates ih (store.goal c) (c :: A) (path ++ [.types c]) σ
      rw [check_succ h hc, hgoal]
      exact if_neg hhits

theorem solve_check_eq_watch (g : Goal) (A : Assumptions) (path : Path) (σ : Progress Watched) :
    g.solve (check store room) A path (σ.map Watched.kept) =
      ((g.solve (watch store room) A path σ).1,
        (g.solve (watch store room) A path σ).2.map Watched.kept) :=
  Goal.solve_simulates check_eq_watch g A path σ

/-- What was answered from memory is answered so afterwards, and what was written down stays. -/
structure Extends (σ τ : Progress Watched) : Prop where
  keeps : ∀ c o, σ.kept.kept.memo.get? c = some o → τ.kept.kept.memo.get? c = some o
  granted : σ.kept.granted ⊆ τ.kept.granted

theorem Extends.refl (σ : Progress Watched) : Extends σ σ where
  keeps _ _ h := h
  granted := List.Subset.refl _

theorem Extends.trans {σ τ υ : Progress Watched} (h : Extends σ τ) (h' : Extends τ υ) :
    Extends σ υ where
  keeps c o hc := h'.keeps c o (h.keeps c o hc)
  granted := List.Subset.trans h.granted h'.granted

theorem solve_watch_extends
    (H : ∀ A path c σ, Extends σ (watch store room A path c σ).2) (g : Goal) (A : Assumptions)
    (path : Path) (σ : Progress Watched) : Extends σ (g.solve (watch store room) A path σ).2 := by
  refine Goal.solve_advances (R := fun _ σ τ => Extends σ τ) (fun _ σ => .refl σ)
    (fun _ _ _ _ h h' => h.trans h') ?_ H g A path σ
  intro A B σ τ s _ h
  exact ⟨h.keeps, h.granted⟩

theorem watch_extends (A : Assumptions) (path : Path) (c : Constraint) (σ : Progress Watched) :
    Extends σ (watch store room A path c σ).2 := by
  induction room, A, path, c, σ using watch_induct store with
  | granted room A path c σ h hc hpath => exact ⟨fun _ _ h => h, List.subset_cons_self c _⟩
  | settled room A path c σ h hc ih r hhits =>
      have hgoal := solve_watch_extends ih (store.goal c) (c :: A) (path ++ [.types c]) σ
      refine ⟨fun d o hd => ?_, hgoal.granted⟩
      rw [Memo.get?_insert_of_ne _ (Memo.ne_of_get? h hd)]
      exact hgoal.keeps d o hd
  | tainted room A path c σ h hc ih r hhits =>
      exact solve_watch_extends ih (store.goal c) (c :: A) (path ++ [.types c]) σ
  | _ => exact ⟨fun _ _ h => h, List.Subset.refl _⟩

theorem vacant_of_solve_watch {c : Constraint} {A : Assumptions} {path : Path}
    {σ : Progress Watched} (h : σ.kept.kept.memo.get? c = none) (g : Goal) :
    (g.solve (watch store room) (c :: A) path σ).2.kept.kept.memo.get? c = none := by
  have hcheck : (g.solve (check store room) (c :: A) path
      (σ.map Watched.kept)).2.kept.memo.get? c = none := vacant_of_solve h g
  rwa [solve_check_eq_watch] at hcheck

end Subtyping
