import Subtyping.Proofs.Checker.Within
import Subtyping.Proofs.Unfolding.Holds

/-!
# Checks with other variables

A check is told apart from the same check at another supply by the labels of its fresh variables
alone: its outcome, what it keeps and all its calls come out relabelled (`check_mirrors`,
`Call.Mirrors.within`). So it does not matter at which number the fresh variables start, as long as
no variable of the store or of the question has been given out again (`isSubtype_renamed`).
-/

namespace Subtyping

/-- A failure with other variables in the places of its variables. -/
def Failure.relabel (ρ : TypeVar → TypeVar) (f : Failure) : Failure :=
  ⟨f.reason.relabel ρ, f.path.map (Step.relabel ρ)⟩

/-- An outcome with other variables in the places of its variables. -/
def Outcome.relabel (ρ : TypeVar → TypeVar) : Outcome → Outcome
  | .success => .success
  | .failure f => .failure (f.relabel ρ)

/-- A memo with other variables in the places of its variables. -/
def Memo.relabel (ρ : TypeVar → TypeVar) (m : Memo) : Memo :=
  ⟨m.entries.map fun e => (e.1.relabel ρ, e.2.relabel ρ)⟩

/-- What a checker keeps, with other variables in the places of its variables. -/
def Kept.relabel (ρ : TypeVar → TypeVar) (k : Kept) : Kept := { k with memo := k.memo.relabel ρ }

variable {ρ : TypeVar → TypeVar}

section Outcomes

theorem Failure.relabel_after (path : Path) (f : Failure) :
    (f.after path).relabel ρ = (f.relabel ρ).after (path.map (Step.relabel ρ)) := by
  simp [relabel, after]

theorem Failure.relabel_dropPath (n : Nat) (f : Failure) :
    (f.dropPath n).relabel ρ = (f.relabel ρ).dropPath n := by
  simp [relabel, dropPath, List.map_drop]

theorem Failure.relabel_asParameter (method : Atom) (f : Failure) :
    (f.asParameter method).relabel ρ = (f.relabel ρ).asParameter method := by
  rcases f with ⟨reason, path⟩
  cases reason <;> rfl

theorem Outcome.relabel_mapFailure {g g' : Failure → Failure}
    (h : ∀ f, (g f).relabel ρ = g' (f.relabel ρ)) (o : Outcome) :
    (o.mapFailure g).relabel ρ = (o.relabel ρ).mapFailure g' := by
  cases o with
  | success => rfl
  | failure f => exact congrArg failure (h f)

theorem Memo.get?_relabel (hρ : Function.Injective ρ) (m : Memo) (c : Constraint) :
    (m.relabel ρ).get? (c.relabel ρ) = (m.get? c).map (Outcome.relabel ρ) := by
  have hinj := Constraint.relabel_injective hρ
  exact Assoc.get?_map_of_injective hinj (Outcome.relabel ρ) m.entries c

theorem Memo.insert_relabel (hρ : Function.Injective ρ) (m : Memo) (c : Constraint) (o : Outcome) :
    (m.insert c o).relabel ρ = (m.relabel ρ).insert (c.relabel ρ) (o.relabel ρ) := by
  have hne : ∀ d : Constraint, (d.relabel ρ ≠ c.relabel ρ) = (d ≠ c) :=
    fun d => congrArg Not (propext (Constraint.relabel_injective hρ).eq_iff)
  simp only [insert, relabel, List.map_cons, Assoc.erase, List.filter_map, Function.comp_def, hne]

end Outcomes

/-- The second progress is the first one with other variables, the next ones included. -/
structure Progress.Mirrors (ρ : TypeVar → TypeVar) (σ σ' : Progress Kept) : Prop where
  supply : Moves ρ σ.supply σ'.supply
  kept : σ'.kept = σ.kept.relabel ρ

/-- The second call is the first one with other variables. -/
structure Call.Mirrors (ρ : TypeVar → TypeVar) (x x' : Call Kept) : Prop where
  assumed : x'.assumed = x.assumed.map (Constraint.relabel ρ)
  path : x'.path = x.path.map (Step.relabel ρ)
  constraint : x'.constraint = x.constraint.relabel ρ
  progress : x.progress.Mirrors ρ x'.progress

/-- The second answer is the first one with other variables. -/
structure Mirrored (ρ : TypeVar → TypeVar) (r r' : Outcome × Progress Kept) : Prop where
  outcome : r'.1 = r.1.relabel ρ
  progress : r.2.Mirrors ρ r'.2

theorem Mirrored.success_iff {r r' : Outcome × Progress Kept} (h : Mirrored ρ r r') :
    r'.1 = .success ↔ r.1 = .success := by
  rw [h.outcome]
  cases r.1 <;> simp [Outcome.relabel]

/-- The second decision answers a relabelled call with the relabelled answer. -/
def Decision.Mirrors (ρ : TypeVar → TypeVar) (decide decide' : Decision Kept) : Prop :=
  ∀ x x' : Call Kept, x.Mirrors ρ x' → Mirrored ρ (x.answer decide) (x'.answer decide')

theorem Progress.Mirrors.ceilingHits_eq {σ σ' : Progress Kept} (h : σ.Mirrors ρ σ') :
    σ'.kept.ceilingHits = σ.kept.ceilingHits := by
  rw [h.kept, Kept.relabel]

theorem Progress.Mirrors.draw {σ σ' : Progress Kept} (h : σ.Mirrors ρ σ') (sub sup : List TypeVar) :
    (σ'.supply.drawAll (sub.map ρ)).1 = (σ.supply.drawAll sub).1.map ρ ∧
      ((σ'.supply.drawAll (sub.map ρ)).2.drawAll (sup.map ρ)).1 =
        ((σ.supply.drawAll sub).2.drawAll sup).1.map ρ ∧
      Progress.Mirrors ρ { σ with supply := ((σ.supply.drawAll sub).2.drawAll sup).2 }
        { σ' with supply := ((σ'.supply.drawAll (sub.map ρ)).2.drawAll (sup.map ρ)).2 } := by
  obtain ⟨hvs, hsub⟩ := h.supply.drawAll sub
  obtain ⟨hws, hsup⟩ := hsub.drawAll sup
  exact ⟨hvs.symm, hws.symm, hsup, h.kept⟩

/-- The calls of one kind are those of the other kind with other variables. -/
structure MirrorEach (ρ : TypeVar → TypeVar) (P P' : Call Kept → Prop) : Prop where
  forth : ∀ y, P y → ∃ y', P' y' ∧ y.Mirrors ρ y'
  back : ∀ y', P' y' → ∃ y, P y ∧ y.Mirrors ρ y'

theorem MirrorEach.or {P P' Q Q' : Call Kept → Prop} {p p' : Prop} (h : MirrorEach ρ P P')
    (hp : p' ↔ p) (h' : MirrorEach ρ Q Q') :
    MirrorEach ρ (fun y => P y ∨ p ∧ Q y) (fun y => P' y ∨ p' ∧ Q' y) where
  forth y hy := by
    rcases hy with hy | ⟨hyes, hy⟩
    · obtain ⟨y', hy', hyy⟩ := h.forth y hy
      exact ⟨y', .inl hy', hyy⟩
    · obtain ⟨y', hy', hyy⟩ := h'.forth y hy
      exact ⟨y', .inr ⟨hp.mpr hyes, hy'⟩, hyy⟩
  back y' hy := by
    rcases hy with hy | ⟨hyes, hy⟩
    · obtain ⟨y, hy, hyy⟩ := h.back y' hy
      exact ⟨y, .inl hy, hyy⟩
    · obtain ⟨y, hy, hyy⟩ := h'.back y' hy
      exact ⟨y, .inr ⟨hp.mp hyes, hy⟩, hyy⟩

section Goals

variable {decide decide' : Decision Kept} {g g' : Goal} {σ σ' : Progress Kept}

theorem Goal.Relabels.solve_mirrors (hd : decide.Mirrors ρ decide') (hg : g.Relabels ρ g')
    (A : Assumptions) (path : Path) (hσ : σ.Mirrors ρ σ') :
    Mirrored ρ (g.solve decide A path σ)
      (g'.solve decide' (A.map (Constraint.relabel ρ)) (path.map (Step.relabel ρ)) σ') := by
  induction hg generalizing A path σ σ' with
  | trivial => exact ⟨rfl, hσ⟩
  | impossible reason => exact ⟨rfl, hσ⟩
  | nested c => exact hd ⟨A, path, c, σ⟩ ⟨_, _, _, σ'⟩ ⟨rfl, rfl, rfl, hσ⟩
  | @both g g' h h' _ _ ihg ihh =>
      obtain ⟨hout, hτ⟩ := ihg A path hσ
      rw [Goal.solve, Goal.solve]
      generalize g.solve decide A path σ = r at hout hτ ⊢
      generalize g'.solve decide' _ _ σ' = r' at hout hτ ⊢
      rcases r with ⟨_ | f, τ⟩ <;> rcases r' with ⟨o', τ'⟩ <;> cases hout
      · exact ihh A path hτ
      · exact ⟨rfl, hτ⟩
  | @either g g' h h' _ _ ihg ihh =>
      obtain ⟨hout, hτ⟩ := ihg A path hσ
      rw [Goal.solve, Goal.solve]
      generalize g.solve decide A path σ = r at hout hτ ⊢
      generalize g'.solve decide' _ _ σ' = r' at hout hτ ⊢
      rcases r with ⟨_ | f, τ⟩ <;> rcases r' with ⟨o', τ'⟩ <;> cases hout
      · exact ⟨rfl, hτ⟩
      · obtain ⟨hout, hυ⟩ := ihh A path hτ
        dsimp only
        generalize h.solve decide A path τ = r at hout hυ ⊢
        generalize h'.solve decide' _ _ τ' = r' at hout hυ ⊢
        rcases r with ⟨_ | e, υ⟩ <;> rcases r' with ⟨o', υ'⟩ <;> cases hout
        · exact ⟨rfl, hυ⟩
        · exact ⟨rfl, hυ⟩
  | within step _ ih =>
      have hbody := ih A (path ++ [step]) hσ
      rwa [List.map_append] at hbody
  | @parameters method g g' _ ih =>
      obtain ⟨hout, hτ⟩ := ih A path hσ
      refine ⟨?_, hτ⟩
      rw [Goal.solve, Goal.solve]
      dsimp only
      rw [hout, Outcome.relabel_mapFailure (Failure.relabel_asParameter method)]
  | fresh sub sup _ ih =>
      obtain ⟨hvs, hws, hτ⟩ := hσ.draw sub sup
      have hbody := ih (σ.supply.drawAll sub).1 ((σ.supply.drawAll sub).2.drawAll sup).1
        (equalities (σ.supply.drawAll sub).1 ((σ.supply.drawAll sub).2.drawAll sup).1 ++ A) path hτ
      rw [List.map_append, ← equalities_map, ← hvs, ← hws] at hbody
      exact hbody

theorem Goal.Relabels.calls_mirror (hd : decide.Mirrors ρ decide') (hg : g.Relabels ρ g')
    (A : Assumptions) (path : Path) (hσ : σ.Mirrors ρ σ') :
    MirrorEach ρ (g.Calls decide A path σ)
      (g'.Calls decide' (A.map (Constraint.relabel ρ)) (path.map (Step.relabel ρ)) σ') := by
  induction hg generalizing A path σ σ' with
  | trivial => exact ⟨fun _ h => h.elim, fun _ h => h.elim⟩
  | impossible reason => exact ⟨fun _ h => h.elim, fun _ h => h.elim⟩
  | nested c =>
      constructor
      · rintro y rfl
        exact ⟨_, rfl, rfl, rfl, rfl, hσ⟩
      · rintro y' rfl
        exact ⟨_, rfl, rfl, rfl, rfl, hσ⟩
  | both hg _ ihg ihh =>
      have hfirst := hg.solve_mirrors hd A path hσ
      exact (ihg A path hσ).or hfirst.success_iff (ihh A path hfirst.progress)
  | either hg _ ihg ihh =>
      have hfirst := hg.solve_mirrors hd A path hσ
      exact (ihg A path hσ).or (not_congr hfirst.success_iff) (ihh A path hfirst.progress)
  | within step _ ih =>
      have hbody := ih A (path ++ [step]) hσ
      rwa [List.map_append] at hbody
  | parameters method _ ih => exact ih A path hσ
  | fresh sub sup _ ih =>
      obtain ⟨hvs, hws, hτ⟩ := hσ.draw sub sup
      have hbody := ih (σ.supply.drawAll sub).1 ((σ.supply.drawAll sub).2.drawAll sup).1
        (equalities (σ.supply.drawAll sub).1 ((σ.supply.drawAll sub).2.drawAll sup).1 ++ A) path hτ
      rw [List.map_append, ← equalities_map, ← hvs, ← hws] at hbody
      exact hbody

end Goals
section Checks

variable {store : Store} {room room' : Nat} {x x' y y' z : Call Kept}

theorem Call.Mirrors.get?_eq (h : x.Mirrors ρ x') :
    x'.progress.kept.memo.get? x'.constraint =
      (x.progress.kept.memo.get? x.constraint).map (Outcome.relabel ρ) := by
  rw [h.progress.kept, h.constraint]
  exact Memo.get?_relabel h.progress.supply.injective _ _

theorem Call.Mirrors.mem_assumed_iff (h : x.Mirrors ρ x') :
    x'.constraint ∈ x'.assumed ↔ x.constraint ∈ x.assumed := by
  rw [h.assumed, h.constraint]
  exact List.mem_map_of_injective (Constraint.relabel_injective h.progress.supply.injective)

theorem Call.Mirrors.undecided_iff (h : x.Mirrors ρ x') : x'.Undecided ↔ x.Undecided := by
  have hvacant := h.get?_eq
  constructor
  · intro hx
    rw [hx.vacant, eq_comm, Option.map_eq_none_iff] at hvacant
    exact ⟨hvacant, mt h.mem_assumed_iff.mpr hx.notAssumed⟩
  · intro hx
    rw [hx.vacant] at hvacant
    exact ⟨hvacant, mt h.mem_assumed_iff.mp hx.notAssumed⟩

theorem Call.Mirrors.answer_of_decided (h : x.Mirrors ρ x') (hx : ¬x.Undecided) :
    Mirrored ρ (x.answer (check store room)) (x'.answer (check store room)) := by
  have hmemo := h.get?_eq
  rcases Call.memo_or_assumed hx with ⟨o, ho⟩ | ⟨hvacant, hmem⟩
  · rw [ho] at hmemo
    rw [Call.answer, Call.answer, check_of_memo ho, check_of_memo hmemo, h.path]
    exact ⟨(Outcome.relabel_mapFailure (Failure.relabel_after x.path) o).symm, h.progress⟩
  · rw [hvacant] at hmemo
    rw [Call.answer, Call.answer, check_of_assumed hvacant hmem,
      check_of_assumed hmemo (h.mem_assumed_iff.mpr hmem)]
    exact ⟨rfl, h.progress⟩

theorem Progress.Mirrors.hit {σ σ' : Progress Kept} (h : σ.Mirrors ρ σ') :
    Progress.Mirrors ρ { σ with kept.ceilingHits := σ.kept.ceilingHits + 1 }
      { σ' with kept.ceilingHits := σ'.kept.ceilingHits + 1 } := by
  obtain ⟨hsupply, hkept⟩ := h
  refine ⟨hsupply, ?_⟩
  dsimp only
  rw [hkept]
  rfl

theorem Progress.Mirrors.remember {σ σ' : Progress Kept} (h : σ.Mirrors ρ σ') (path : Path)
    (c : Constraint) (o : Outcome) :
    (σ.remember path c o).Mirrors ρ
      (σ'.remember (path.map (Step.relabel ρ)) (c.relabel ρ) (o.relabel ρ)) := by
  obtain ⟨hsupply, hkept⟩ := h
  refine ⟨hsupply, ?_⟩
  have hlocal := Outcome.relabel_mapFailure (ρ := ρ) (Failure.relabel_dropPath path.length) o
  rw [Progress.remember, Progress.remember, hkept, List.length_map, ← hlocal]
  simp only [Kept.relabel, Memo.insert_relabel hsupply.injective]

section Relabelled

variable (hstore : ∀ v ∈ store.vars, ρ v = v)

include hstore

theorem Call.Mirrors.opened (hcheck : (check store room).Mirrors ρ (check store room))
    (h : x.Mirrors ρ x') : Mirrored ρ (store.opened room x) (store.opened room x') := by
  have hgoal := store.goal_relabels h.progress.supply.injective hstore x.constraint
  have hsolve := hgoal.solve_mirrors hcheck (x.constraint :: x.assumed)
    (x.path ++ [.types x.constraint]) h.progress
  rw [Store.opened, Store.opened, h.constraint, h.assumed, h.path]
  rwa [List.map_cons, List.map_append, List.map_singleton] at hsolve

/-- The check of a relabelled call comes to the relabelled answer. -/
theorem check_mirrors : (check store room).Mirrors ρ (check store room) := by
  induction room with
  | zero =>
      intro x x' h
      by_cases hx : x.Undecided
      · rw [hx.answer_zero, (h.undecided_iff.mpr hx).answer_zero, h.path]
        exact ⟨rfl, h.progress.hit⟩
      · exact h.answer_of_decided hx
  | succ room ih =>
      intro x x' h
      by_cases hx : x.Undecided
      · obtain ⟨hout, hτ⟩ := h.opened hstore ih
        rw [hx.answer_succ, (h.undecided_iff.mpr hx).answer_succ, hτ.ceilingHits_eq,
          h.progress.ceilingHits_eq, hout, h.path, h.constraint]
        split
        · exact ⟨rfl, hτ.remember x.path x.constraint _⟩
        · exact ⟨rfl, hτ⟩
      · exact h.answer_of_decided hx

theorem Call.Mirrors.makes (h : x.Mirrors ρ x') :
    MirrorEach ρ (store.Makes room x) (store.Makes room x') := by
  have hgoal := store.goal_relabels h.progress.supply.injective hstore x.constraint
  have hcheck : (check store room).Mirrors ρ (check store room) := check_mirrors hstore
  have hcalls := hgoal.calls_mirror hcheck (x.constraint :: x.assumed)
    (x.path ++ [.types x.constraint]) h.progress
  unfold Store.Makes
  rw [h.constraint, h.assumed, h.path]
  rwa [List.map_cons, List.map_append, List.map_singleton] at hcalls

theorem Call.Mirrors.within (h : x.Mirrors ρ x') :
    MirrorEach ρ (store.Within room x room') (store.Within room x' room') := by
  constructor
  · intro z hz
    induction hz generalizing x' with
    | self room x => exact ⟨x', .self room x', h⟩
    | deeper hx hy _ ih =>
        obtain ⟨y', hy', hyy⟩ := (h.makes hstore).forth _ hy
        obtain ⟨z', hz', hzz⟩ := ih hyy
        exact ⟨z', .deeper (h.undecided_iff.mpr hx) hy' hz', hzz⟩
  · intro z' hz
    induction hz generalizing x with
    | self room x' => exact ⟨x, .self room x, h⟩
    | deeper hx hy _ ih =>
        obtain ⟨y, hy', hyy⟩ := (h.makes hstore).back _ hy
        obtain ⟨z, hz', hzz⟩ := ih hyy
        exact ⟨z, .deeper (h.undecided_iff.mp hx) hy' hz', hzz⟩

end Relabelled

end Checks

end Subtyping
