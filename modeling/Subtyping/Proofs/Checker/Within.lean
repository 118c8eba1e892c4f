import Subtyping.Proofs.Checker.Progress
import Subtyping.Proofs.Goal.Calls

/-!
# The run of a check

A check calls for further checks as long as there is room, and its run is made of all of them
(`Store.Within`). Each stands between the start and the end (`Within.advances`), and what no opened
constraint, no outcome that is kept and no hit of the limit spoils is true at all of them
(`check_keeps`).
-/

namespace Subtyping

/-- Neither the memory nor the assumptions answer a call. -/
structure Call.Undecided (x : Call Kept) : Prop where
  vacant : x.progress.kept.memo.get? x.constraint = none
  notAssumed : x.constraint ∉ x.assumed

instance (x : Call Kept) : Decidable x.Undecided :=
  decidable_of_iff (x.progress.kept.memo.get? x.constraint = none ∧ x.constraint ∉ x.assumed)
    ⟨fun h => ⟨h.1, h.2⟩, fun h => ⟨h.vacant, h.notAssumed⟩⟩

/-- The call that a checker makes when it checks a constraint. -/
def Checker.call (k : Checker) (supply : FreshSupply) (A : Assumptions) (path : Path)
    (c : Constraint) : Call Kept := ⟨A, path, c, ⟨supply, k.kept⟩⟩

namespace Store

/-- What comes of the goal of a call with room for so many nested constraints. -/
def opened (store : Store) (room : Nat) (x : Call Kept) : Outcome × Progress Kept :=
  (store.goal x.constraint).solve (check store room) (x.constraint :: x.assumed)
    (x.path ++ [.types x.constraint]) x.progress

/-- Whether the goal of one call makes the other. -/
def Makes (store : Store) (room : Nat) (x y : Call Kept) : Prop :=
  (store.goal x.constraint).Calls (check store room) (x.constraint :: x.assumed)
    (x.path ++ [.types x.constraint]) x.progress y

/-- Whether a call is made in the course of another one, itself included, with the room that each of
them has. -/
inductive Within (store : Store) : Nat → Call Kept → Nat → Call Kept → Prop
  | self (room : Nat) (x : Call Kept) : store.Within room x room x
  | deeper {room room' : Nat} {x y z : Call Kept} (hx : x.Undecided) (hy : store.Makes room x y)
      (hz : store.Within room y room' z) : store.Within (room + 1) x room' z

end Store

/-- The progress with an outcome kept for a constraint at the end of a path. -/
def Progress.remember (σ : Progress Kept) (path : Path) (c : Constraint) (o : Outcome) :
    Progress Kept :=
  { σ with kept.memo := σ.kept.memo.insert c (o.mapFailure (Failure.dropPath path.length)) }

variable {store : Store} {room room' : Nat} {x y z : Call Kept}

theorem Call.Undecided.answer_succ (h : x.Undecided) :
    x.answer (check store (room + 1)) =
      ((store.opened room x).1,
        if (store.opened room x).2.kept.ceilingHits = x.progress.kept.ceilingHits then
          (store.opened room x).2.remember x.path x.constraint (store.opened room x).1
        else (store.opened room x).2) := by
  have h : check store (room + 1) x.assumed x.path x.constraint x.progress = _ :=
    check_succ h.vacant h.notAssumed
  rw [Call.answer, h]
  dsimp only
  split
  next hhits =>
    rw [Store.opened, if_pos hhits]
    rfl
  next hhits => rw [Store.opened, if_neg hhits]

theorem Call.Undecided.answer_zero (h : x.Undecided) :
    x.answer (check store 0) = (.failure ⟨.depthExceeded, x.path⟩,
      { x.progress with kept.ceilingHits := x.progress.kept.ceilingHits + 1 }) :=
  check_zero h.vacant h.notAssumed

theorem Call.Undecided.ceilingHits_answer (h : x.Undecided) :
    (x.answer (check store (room + 1))).2.kept.ceilingHits =
      (store.opened room x).2.kept.ceilingHits := by
  rw [h.answer_succ]
  dsimp only
  split <;> rfl

theorem Call.memo_or_assumed (h : ¬x.Undecided) :
    (∃ o, x.progress.kept.memo.get? x.constraint = some o) ∨
      x.progress.kept.memo.get? x.constraint = none ∧ x.constraint ∈ x.assumed := by
  cases hm : x.progress.kept.memo.get? x.constraint with
  | some o => exact .inl ⟨o, rfl⟩
  | none => exact .inr ⟨rfl, Decidable.byContradiction fun hc => h ⟨hm, hc⟩⟩

theorem Call.answer_eq_of_decided (h : ¬x.Undecided) (room room' : Nat) :
    x.answer (check store room) = x.answer (check store room') := by
  rcases Call.memo_or_assumed h with ⟨o, hm⟩ | ⟨hm, hc⟩
  · rw [Call.answer, Call.answer, check_of_memo hm, check_of_memo hm]
  · rw [Call.answer, Call.answer, check_of_assumed hm hc, check_of_assumed hm hc]

theorem Call.answer_of_decided (h : ¬x.Undecided) :
    (x.answer (check store room)).2 = x.progress := by
  rcases Call.memo_or_assumed h with ⟨o, hm⟩ | ⟨hm, hc⟩
  · rw [Call.answer, check_of_memo hm]
  · rw [Call.answer, check_of_assumed hm hc]

theorem Call.answer_advances (x : Call Kept) :
    Advances x.assumed x.progress (x.answer (check store room)).2 :=
  check_advances x.assumed x.path x.constraint x.progress

theorem Store.opened_advances (store : Store) (room : Nat) (x : Call Kept) :
    Advances (x.constraint :: x.assumed) x.progress (store.opened room x).2 :=
  solve_check_advances check_advances (store.goal x.constraint) _ _ _

theorem Call.Undecided.opened_advances (h : x.Undecided) :
    Advances x.assumed (store.opened room x).2 (x.answer (check store (room + 1))).2 := by
  rw [h.answer_succ]
  split
  · -- the outcome goes where none was, and the constraint was not assumed before
    have hvacant : (store.opened room x).2.kept.memo.get? x.constraint = none :=
      vacant_of_solve h.vacant (store.goal x.constraint)
    refine ⟨Nat.le_refl _, Nat.le_refl _, fun d o hd => ?_, fun a ha hv => ?_⟩
    · rw [Progress.remember, Memo.get?_insert_of_ne _ (Memo.ne_of_get? hvacant hd)]
      exact hd
    · have hne : a ≠ x.constraint := by
        rintro rfl
        exact h.notAssumed ha
      rw [Progress.remember, Memo.get?_insert_of_ne _ hne]
      exact hv
  · exact .refl _ _

theorem Store.Makes.subset (h : store.Makes room x y) : x.constraint :: x.assumed ⊆ y.assumed :=
  Goal.Calls.subset h

theorem Store.Makes.advances (h : store.Makes room x y) :
    Advances (x.constraint :: x.assumed) x.progress y.progress ∧
      Advances (x.constraint :: x.assumed) (y.answer (check store room)).2
        (store.opened room x).2 := by
  apply Goal.Calls.between Advances.refl _ _ check_advances h
  · exact fun _ _ _ _ hστ hτυ => hστ.trans hτυ
  · exact fun _ _ _ _ _ hle hστ => hστ.of_draw hle

namespace Store.Within

theorem subset (h : store.Within room x room' z) : x.assumed ⊆ z.assumed := by
  induction h with
  | self room x => exact List.Subset.refl _
  | deeper hx hy hz ih =>
      exact List.Subset.trans (List.subset_cons_self _ _) (List.Subset.trans hy.subset ih)

theorem advances (h : store.Within room x room' z) :
    Advances x.assumed x.progress z.progress ∧
      Advances x.assumed (z.answer (check store room')).2 (x.answer (check store room)).2 := by
  induction h with
  | self room x => exact ⟨.refl _ _, .refl _ _⟩
  | @deeper room room' x y z hx hy hz ih =>
      have hsub : x.assumed ⊆ x.constraint :: x.assumed := List.subset_cons_self _ _
      have hdown : x.assumed ⊆ y.assumed := List.Subset.trans hsub hy.subset
      obtain ⟨hbefore, hafter⟩ := hy.advances
      refine ⟨(hbefore.mono hsub).trans (ih.1.mono hdown), ?_⟩
      exact ((ih.2.mono hdown).trans (hafter.mono hsub)).trans hx.opened_advances

theorem vacant (h : store.Within room x room' z) {c : Constraint} (hc : c ∈ x.assumed)
    (hv : x.progress.kept.memo.get? c = none) :
    z.progress.kept.memo.get? c = none ∧
      (z.answer (check store room')).2.kept.memo.get? c = none := by
  have hbefore := h.advances.1.vacant c hc hv
  exact ⟨hbefore, z.answer_advances.vacant c (h.subset hc) hbefore⟩

end Store.Within

/-- What is not spoilt in the course of a call: neither by new variables that are taken to be equal,
nor by forgetting what was assumed, nor by opening a constraint, nor by meeting the limit, nor by
keeping an outcome. -/
structure Store.Keeps (store : Store) (room : Nat) (x : Call Kept)
    (P : Assumptions → Progress Kept → Prop) : Prop where
  drawn : ∀ A σ sub sup, P A σ →
    P (equalities (σ.supply.drawAll sub).1 ((σ.supply.drawAll sub).2.drawAll sup).1 ++ A)
      { σ with supply := ((σ.supply.drawAll sub).2.drawAll sup).2 }
  forgotten : ∀ A B σ, P (B ++ A) σ → P A σ
  opened : ∀ room' z, store.Within room x room' z → z.Undecided → P z.assumed z.progress →
    P (z.constraint :: z.assumed) z.progress
  hit : ∀ A (σ : Progress Kept), P A σ → P A { σ with kept.ceilingHits := σ.kept.ceilingHits + 1 }
  remembered : ∀ room' z, store.Within room x (room' + 1) z → z.Undecided →
    (store.opened room' z).2.kept.ceilingHits = z.progress.kept.ceilingHits →
      P (z.constraint :: z.assumed) (store.opened room' z).2 →
        P z.assumed ((store.opened room' z).2.remember z.path z.constraint
          (store.opened room' z).1)

theorem Store.Keeps.deeper {P : Assumptions → Progress Kept → Prop}
    (h : store.Keeps (room + 1) x P) (hx : x.Undecided) (hy : store.Makes room x y) :
    store.Keeps room y P :=
  { h with
    opened := fun room' z hz => h.opened room' z (.deeper hx hy hz)
    remembered := fun room' z hz => h.remembered room' z (.deeper hx hy hz) }

/-- What is true when a call is made and not spoilt in the course of it is true whenever a call is
made within it, and in the end. -/
theorem check_keeps {P : Assumptions → Progress Kept → Prop} (hkeeps : store.Keeps room x P)
    (h : P x.assumed x.progress) :
    P x.assumed (x.answer (check store room)).2 ∧
      ∀ room' z, store.Within room x room' z → P z.assumed z.progress := by
  induction room generalizing x with
  | zero =>
      refine ⟨?_, fun room' z hz => ?_⟩
      · by_cases hx : x.Undecided
        · rw [hx.answer_zero]
          exact hkeeps.hit _ _ h
        · rw [Call.answer_of_decided hx]
          exact h
      · cases hz
        exact h
  | succ room ih =>
      by_cases hx : x.Undecided
      · have hopen := hkeeps.opened _ _ (.self _ x) hx h
        obtain ⟨hgoal, hcalls⟩ := Goal.solve_keeps hkeeps.drawn hkeeps.forgotten
          (fun y hy hP => (ih (hkeeps.deeper hx hy) hP).1) hopen
        refine ⟨?_, fun room' z hz => ?_⟩
        · rw [hx.answer_succ]
          split
          next hhits => exact hkeeps.remembered room x (.self _ x) hx hhits hgoal
          next => exact hkeeps.forgotten _ [x.constraint] _ hgoal
        · cases hz with
          | self => exact h
          | deeper _ hy hz => exact (ih (hkeeps.deeper hx hy) (hcalls _ hy)).2 _ _ hz
      · refine ⟨?_, fun room' z hz => ?_⟩
        · rw [Call.answer_of_decided hx]
          exact h
        · cases hz with
          | self => exact h
          | deeper hx' => exact absurd hx' hx

end Subtyping
