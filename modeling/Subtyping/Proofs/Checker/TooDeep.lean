import Subtyping.Goal.Rules
import Subtyping.Proofs.Checker.Progress

/-!
# Failing too deep

Only the ceiling makes a check fail because it went too deep: no rule gives that reason, and no such
failure is kept. So a check that fails for it has met the ceiling (`ceilingHits_lt_of_tooDeep`).
-/

namespace Subtyping

/-- Whether a check failed because it went too deep. -/
def Outcome.TooDeep : Outcome → Prop
  | success => False
  | failure f => f.reason = .depthExceeded

theorem Outcome.tooDeep_mapFailure {g : Failure → Failure} (hg : ∀ f, (g f).reason = f.reason)
    (o : Outcome) : (o.mapFailure g).TooDeep ↔ o.TooDeep := by
  cases o with
  | success => rfl
  | failure f => rw [mapFailure, TooDeep, TooDeep, hg]

theorem Outcome.tooDeep_asParameter (method : Atom) (o : Outcome) :
    (o.mapFailure (Failure.asParameter method)).TooDeep ↔ o.TooDeep := by
  cases o with
  | success => rfl
  | failure f =>
      rcases f with ⟨reason, path⟩
      cases reason <;> simp [mapFailure, TooDeep, Failure.asParameter]

namespace Goal

/-- Whether all reasons that a goal gives by itself are of a kind. -/
def Gives (P : Reason → Prop) : Goal → Prop
  | trivial => True
  | impossible reason => P reason
  | nested _ => True
  | both g h => g.Gives P ∧ h.Gives P
  | either g h => g.Gives P ∧ h.Gives P
  | within _ g => g.Gives P
  | parameters _ g => g.Gives P
  | fresh _ _ body => ∀ vs ws, (body vs ws).Gives P

variable {P : Reason → Prop}

theorem gives_all {gs : List Goal} (h : ∀ g ∈ gs, g.Gives P) : (all gs).Gives P := by
  induction gs with
  | nil => exact True.intro
  | cons g gs ih =>
      exact ⟨h g List.mem_cons_self, ih fun k hk => h k (List.mem_cons_of_mem g hk)⟩

theorem gives_any {otherwise : Goal} {gs : List Goal} (ho : otherwise.Gives P)
    (h : ∀ g ∈ gs, g.Gives P) : (any otherwise gs).Gives P := by
  induction gs with
  | nil => exact ho
  | cons g gs ih =>
      have hg := h g List.mem_cons_self
      have hgs := ih fun k hk => h k (List.mem_cons_of_mem g hk)
      cases gs with
      | nil => exact hg
      | cons k gs => exact ⟨hg, hgs⟩

theorem gives_all_map {α : Type} {f : α → Goal} {xs : List α} (h : ∀ x ∈ xs, (f x).Gives P) :
    (all (xs.map f)).Gives P := by
  apply gives_all
  intro g hg
  obtain ⟨x, hx, rfl⟩ := List.mem_map.mp hg
  exact h x hx

theorem gives_any_map {α : Type} {otherwise : Goal} {f : α → Goal} {xs : List α}
    (ho : otherwise.Gives P) (h : ∀ x ∈ xs, (f x).Gives P) :
    (any otherwise (xs.map f)).Gives P := by
  apply gives_any ho
  intro g hg
  obtain ⟨x, hx, rfl⟩ := List.mem_map.mp hg
  exact h x hx

section Rules

/-- The reasons that have nothing to do with how deep a check goes. -/
abbrev GivesReason (g : Goal) : Prop := g.Gives (· ≠ .depthExceeded)

theorem params_givesReason (method : Atom) (p q : Params Ty) :
    (params method p q).GivesReason := by
  unfold params
  cases p.pairs? q with
  | none => exact nofun
  | some pairs => exact gives_all_map fun _ _ => True.intro

theorem signature_givesReason (method : Atom) (sub sup : Signature) :
    (signature method sub sup).GivesReason := by
  refine ⟨params_givesReason method _ _, ?_, ?_, True.intro, True.intro⟩
  · unfold blockGiven
    split
    · exact True.intro
    · exact nofun
  · cases sub.block with
    | none => exact True.intro
    | some b =>
        cases sup.block with
        | none => exact True.intro
        | some c => exact ⟨params_givesReason method _ _, True.intro⟩

theorem interface_givesReason (sub sup : Interface) : (interface sub sup).GivesReason := by
  apply gives_all_map
  intro q _
  cases sub.method? q.name with
  | none => exact nofun
  | some p =>
      apply gives_all_map
      intro b _
      apply gives_any_map
      · exact nofun
      · intro a _ vs ws
        exact signature_givesReason q.name _ _

end Rules

end Goal

theorem Store.goal_givesReason (store : Store) (c : Constraint) : (store.goal c).GivesReason := by
  unfold Store.goal
  split
  · exact True.intro
  · split
    · split
      · exact Goal.interface_givesReason _ _
      · exact nofun
    · exact Goal.gives_all_map fun _ _ => True.intro
    · exact nofun
    · exact True.intro
    · exact Goal.gives_any_map nofun fun _ _ => True.intro
    · exact Goal.gives_all_map fun _ _ => True.intro
    · exact nofun

/-- Whether no outcome in a memo is a failure for going too deep. -/
def Memo.Definite (m : Memo) : Prop := ∀ c o, m.get? c = some o → ¬o.TooDeep

theorem Memo.definite_empty : Definite {} := fun _ _ h => nomatch h

/-- Between two states of the progress nothing was kept that went too deep, and if the outcome did,
the ceiling was met. -/
structure CountsDepth (σ : Progress Kept) (r : Outcome × Progress Kept) : Prop where
  definite : r.2.kept.memo.Definite
  counted : r.1.TooDeep → σ.kept.ceilingHits < r.2.kept.ceilingHits

theorem CountsDepth.of_draw {σ : Progress Kept} {s : FreshSupply} {r : Outcome × Progress Kept}
    (h : CountsDepth { σ with supply := s } r) : CountsDepth σ r where
  definite := h.definite
  counted := h.counted

section Run

variable {store : Store} {room : Nat}

theorem solve_countsDepth
    (H : ∀ A path c σ, σ.kept.memo.Definite → CountsDepth σ (check store room A path c σ))
    {g : Goal} (hg : g.GivesReason) (A : Assumptions) (path : Path) (σ : Progress Kept)
    (hσ : σ.kept.memo.Definite) : CountsDepth σ (g.solve (check store room) A path σ) := by
  have hhits : ∀ (g : Goal) A path (σ : Progress Kept),
      σ.kept.ceilingHits ≤ (g.solve (check store room) A path σ).2.kept.ceilingHits :=
    fun g A path σ => (solve_check_advances check_advances g A path σ).hits
  induction g generalizing A path σ with
  | trivial => exact ⟨hσ, False.elim⟩
  | impossible reason => exact ⟨hσ, fun h => absurd h hg⟩
  | nested c => exact H A path c σ hσ
  | both g h ihg ihh =>
      have hfirst := ihg hg.1 A path σ hσ
      have hle := hhits g A path σ
      rw [Goal.solve]
      generalize g.solve (check store room) A path σ = r at hfirst hle ⊢
      rcases r with ⟨_ | f, τ⟩
      · have hsecond := ihh hg.2 A path τ hfirst.definite
        exact ⟨hsecond.definite, fun h => Nat.lt_of_le_of_lt hle (hsecond.counted h)⟩
      · exact hfirst
  | either g h ihg ihh =>
      have hfirst := ihg hg.1 A path σ hσ
      rw [Goal.solve]
      generalize g.solve (check store room) A path σ = r at hfirst ⊢
      rcases r with ⟨_ | f, τ⟩
      · exact hfirst
      · have hsecond := ihh hg.2 A path τ hfirst.definite
        have hle := hhits h A path τ
        dsimp only at hfirst hsecond hle ⊢
        generalize h.solve (check store room) A path τ = r at hsecond hle ⊢
        rcases r with ⟨_ | f', υ⟩
        · exact ⟨hsecond.definite, False.elim⟩
        · exact ⟨hsecond.definite, fun h => Nat.lt_of_lt_of_le (hfirst.counted h) hle⟩
  | within step g ih => exact ih hg A _ σ hσ
  | parameters method g ih =>
      have hbody := ih hg A path σ hσ
      exact ⟨hbody.definite, fun h => hbody.counted ((Outcome.tooDeep_asParameter method _).mp h)⟩
  | fresh sub sup body ih =>
      exact .of_draw (ih _ _ (hg _ _) _ path { σ with supply := _ } hσ)

theorem check_countsDepth (A : Assumptions) (path : Path) (c : Constraint) (σ : Progress Kept)
    (hσ : σ.kept.memo.Definite) : CountsDepth σ (check store room A path c σ) := by
  induction room, A, path, c, σ using check_induct store with
  | memo room A path c σ o h =>
      have hsame := Outcome.tooDeep_mapFailure (g := Failure.after path) (fun _ => rfl) o
      exact ⟨hσ, fun ho => absurd (hsame.mp ho) (hσ c o h)⟩
  | assumed room A path c σ h hc => exact ⟨hσ, False.elim⟩
  | ceiling A path c σ h hc => exact ⟨hσ, fun _ => Nat.lt_succ_self _⟩
  | settled room A path c σ h hc ih r hhits =>
      have hgoal :=
        solve_countsDepth ih (store.goal_givesReason c) (c :: A) (path ++ [.types c]) σ hσ
      have hnot : ¬r.1.TooDeep := fun ho => Nat.ne_of_gt (hgoal.counted ho) hhits
      refine ⟨fun d o hd => ?_, fun ho => absurd ho hnot⟩
      rcases Memo.eq_or_get?_of_get?_insert hd with ⟨_, rfl⟩ | hd
      · exact mt (Outcome.tooDeep_mapFailure (g := Failure.dropPath _) (fun _ => rfl) r.1).mp hnot
      · exact hgoal.definite d o hd
  | tainted room A path c σ h hc ih r hhits =>
      exact solve_countsDepth ih (store.goal_givesReason c) (c :: A) (path ++ [.types c]) σ hσ

end Run

/-- A query that fails because it went too deep has met the ceiling. -/
theorem Checker.ceilingHits_lt_of_tooDeep {k : Checker} (hk : k.kept.memo.Definite) {store : Store}
    {supply : FreshSupply} {sub sup : Ty} (h : (k.isSubtype store supply sub sup).1.TooDeep) :
    k.kept.ceilingHits < (k.isSubtype store supply sub sup).2.1.kept.ceilingHits :=
  (check_countsDepth [] [] ⟨sub, sup⟩ ⟨supply, k.kept⟩ hk).counted h

end Subtyping
