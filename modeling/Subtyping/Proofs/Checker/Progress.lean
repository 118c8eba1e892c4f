import Subtyping.Checker
import Subtyping.Proofs.Goal.Solve

/-!
# What a check keeps

A check forgets no outcome that was there before, and gives none to a constraint that it was told to
take to hold (`check_advances`). So the outcome of a constraint is put where none was before.
-/

namespace Subtyping

/-- The second progress comes after the first: variables and hits of the limit have only become
more, no outcome has changed, and none has been found for what is assumed. -/
structure Advances (assumed : Assumptions) (σ τ : Progress Kept) : Prop where
  supply : σ.supply.next ≤ τ.supply.next
  hits : σ.kept.ceilingHits ≤ τ.kept.ceilingHits
  keeps : ∀ c o, σ.kept.memo.get? c = some o → τ.kept.memo.get? c = some o
  vacant : ∀ a ∈ assumed, σ.kept.memo.get? a = none → τ.kept.memo.get? a = none

namespace Advances

variable {A B : Assumptions} {σ τ υ : Progress Kept}

theorem refl (A : Assumptions) (σ : Progress Kept) : Advances A σ σ where
  supply := Nat.le_refl _
  hits := Nat.le_refl _
  keeps _ _ hc := hc
  vacant _ _ hv := hv

theorem trans (h : Advances A σ τ) (h' : Advances A τ υ) : Advances A σ υ where
  supply := Nat.le_trans h.supply h'.supply
  hits := Nat.le_trans h.hits h'.hits
  keeps c o hc := h'.keeps c o (h.keeps c o hc)
  vacant a ha hv := h'.vacant a ha (h.vacant a ha hv)

theorem mono (h : Advances B σ τ) (hAB : A ⊆ B) : Advances A σ τ :=
  { h with vacant := fun a ha hv => h.vacant a (hAB ha) hv }

theorem of_draw {s : FreshSupply} (hle : σ.supply.next ≤ s.next)
    (h : Advances (B ++ A) { σ with supply := s } τ) : Advances A σ τ where
  supply := Nat.le_trans hle h.supply
  hits := h.hits
  keeps := h.keeps
  vacant a ha hv := h.vacant a (List.mem_append_right B ha) hv

end Advances

/-- What is to be said of every check is said of an answer from memory, of an assumption, of a check
at the limit, and of an opened constraint whose outcome is kept or is not, where it has been said of
all checks with less room. -/
@[elab_as_elim]
theorem check_induct (store : Store)
    {motive : Nat → Assumptions → Path → Constraint → Progress Kept → Outcome × Progress Kept → Prop}
    (memo : ∀ room A path c (σ : Progress Kept) o, σ.kept.memo.get? c = some o →
      motive room A path c σ (o.mapFailure (Failure.after path), σ))
    (assumed : ∀ room A path c (σ : Progress Kept), σ.kept.memo.get? c = none → c ∈ A →
      motive room A path c σ (.success, σ))
    (ceiling : ∀ A path c (σ : Progress Kept), σ.kept.memo.get? c = none → c ∉ A →
      motive 0 A path c σ (.failure ⟨.depthExceeded, path⟩,
        { σ with kept.ceilingHits := σ.kept.ceilingHits + 1 }))
    (settled : ∀ room A path c (σ : Progress Kept), σ.kept.memo.get? c = none → c ∉ A →
      (∀ A path c σ, motive room A path c σ (check store room A path c σ)) →
      let r := (store.goal c).solve (check store room) (c :: A) (path ++ [.types c]) σ
      r.2.kept.ceilingHits = σ.kept.ceilingHits →
        motive (room + 1) A path c σ (r.1, { r.2 with
          kept.memo := r.2.kept.memo.insert c (r.1.mapFailure (Failure.dropPath path.length)) }))
    (tainted : ∀ room A path c (σ : Progress Kept), σ.kept.memo.get? c = none → c ∉ A →
      (∀ A path c σ, motive room A path c σ (check store room A path c σ)) →
      let r := (store.goal c).solve (check store room) (c :: A) (path ++ [.types c]) σ
      r.2.kept.ceilingHits ≠ σ.kept.ceilingHits → motive (room + 1) A path c σ r)
    (room : Nat) (A : Assumptions) (path : Path) (c : Constraint) (σ : Progress Kept) :
    motive room A path c σ (check store room A path c σ) := by
  induction room generalizing A path c σ with
  | zero =>
      cases h : σ.kept.memo.get? c with
      | some o =>
          rw [check_of_memo h]
          exact memo 0 A path c σ o h
      | none =>
          by_cases hc : c ∈ A
          · rw [check_of_assumed h hc]
            exact assumed 0 A path c σ h hc
          · rw [check_zero h hc]
            exact ceiling A path c σ h hc
  | succ room ih =>
      cases h : σ.kept.memo.get? c with
      | some o =>
          rw [check_of_memo h]
          exact memo (room + 1) A path c σ o h
      | none =>
          by_cases hc : c ∈ A
          · rw [check_of_assumed h hc]
            exact assumed (room + 1) A path c σ h hc
          · rw [check_succ h hc]
            dsimp only
            split
            next hhits => exact settled room A path c σ h hc ih hhits
            next hhits => exact tainted room A path c σ h hc ih hhits

variable {store : Store} {room : Nat}

theorem solve_check_advances
    (H : ∀ A path c σ, Advances A σ (check store room A path c σ).2) (g : Goal) (A : Assumptions)
    (path : Path) (σ : Progress Kept) :
    Advances A σ (g.solve (check store room) A path σ).2 := by
  apply Goal.solve_advances Advances.refl _ _ H
  · exact fun _ _ _ _ hστ hτυ => hστ.trans hτυ
  · exact fun _ _ _ _ _ hle hστ => hστ.of_draw hle

theorem check_advances (A : Assumptions) (path : Path) (c : Constraint) (σ : Progress Kept) :
    Advances A σ (check store room A path c σ).2 := by
  induction room, A, path, c, σ using check_induct store with
  | memo room A path c σ o h => exact .refl A σ
  | assumed room A path c σ h hc => exact .refl A σ
  | ceiling A path c σ h hc =>
      exact ⟨Nat.le_refl _, Nat.le_succ _, fun _ _ h => h, fun _ _ h => h⟩
  | settled room A path c σ h hc ih hhits =>
      have hgoal := solve_check_advances ih (store.goal c) (c :: A) (path ++ [.types c]) σ
      have hbelow := hgoal.mono (List.subset_cons_self c A)
      refine { hbelow with keeps := fun d o hd => ?_, vacant := fun a ha hv => ?_ }
      · rw [Memo.get?_insert_of_ne _ (Memo.ne_of_get? h hd)]
        exact hbelow.keeps d o hd
      · have hne : a ≠ c := by
          rintro rfl
          exact hc ha
        rw [Memo.get?_insert_of_ne _ hne]
        exact hbelow.vacant a ha hv
  | tainted room A path c σ h hc ih hhits =>
      have hgoal := solve_check_advances ih (store.goal c) (c :: A) (path ++ [.types c]) σ
      exact hgoal.mono (List.subset_cons_self c A)

theorem vacant_of_solve {c : Constraint} {A : Assumptions} {path : Path} {σ : Progress Kept}
    (h : σ.kept.memo.get? c = none) (g : Goal) :
    (g.solve (check store room) (c :: A) path σ).2.kept.memo.get? c = none := by
  have hadvances : Advances (c :: A) σ (g.solve (check store room) (c :: A) path σ).2 :=
    solve_check_advances check_advances g (c :: A) path σ
  exact hadvances.vacant c List.mem_cons_self h

end Subtyping
