import Subtyping.Goal.Rules
import Subtyping.Proofs.Goal.Solve

/-!
# How a goal fails

`Goal.Fails` says in which failures a goal can end, seen from its own place, if it is said in which
each nested constraint can. A decision that ends in no other failures makes the goal end in no others
(`solve_fails`), and it is enough if it does so after nothing but successes where a goal leaves no
choice (`Conjunctive.solve_fails`). Below it is said for every rule how its goal fails.
-/

namespace Subtyping

/-- The failures in which a goal can end. -/
def Goal.Fails (fails : Constraint → Failure → Prop) : Goal → Failure → Prop
  | trivial, _ => False
  | impossible reason, f => f = ⟨reason, []⟩
  | nested c, f => fails c f
  | both g h, f => g.Fails fails f ∨ h.Fails fails f
  | either g _, f => g.Fails fails f
  | within step g, f => ∃ f', g.Fails fails f' ∧ f = f'.after [step]
  | parameters method g, f => ∃ f', g.Fails fails f' ∧ f = f'.asParameter method
  | fresh sub sup body, f => ∃ s : FreshSupply,
      (body (s.drawAll sub).1 ((s.drawAll sub).2.drawAll sup).1).Fails fails f

/-- Something is kept, and a failure at a place is one of the given ones, seen from there. -/
structure EndsIn {κ : Type} (keeps : κ → Prop) (fails : Failure → Prop) (path : Path)
    (r : Outcome × Progress κ) : Prop where
  kept : keeps r.2.kept
  failure : ∀ f, r.1 = .failure f → ∃ f', fails f' ∧ f = f'.after path

namespace EndsIn

variable {κ : Type} {keeps : κ → Prop} {fails fails' : Failure → Prop} {path : Path}
  {r : Outcome × Progress κ}

theorem imp (h : EndsIn keeps fails path r) (H : ∀ f, fails f → fails' f) :
    EndsIn keeps fails' path r := by
  refine ⟨h.kept, fun f hf => ?_⟩
  obtain ⟨f', hf', rfl⟩ := h.failure f hf
  exact ⟨f', H f' hf', rfl⟩

theorem of_success {o : Outcome} {σ : Progress κ} (ho : o = .success) (h : keeps σ.kept) :
    EndsIn keeps fails path (o, σ) := by
  refine ⟨h, fun f hf => ?_⟩
  cases ho.symm.trans hf

end EndsIn

namespace Goal

section Solve

variable {κ : Type} {decide : Decision κ} {keeps : κ → Prop} {fails : Constraint → Failure → Prop}

theorem solve_fails
    (H : ∀ A path c σ, keeps σ.kept → EndsIn keeps (fails c) path (decide A path c σ)) (g : Goal)
    (A : Assumptions) (path : Path) (σ : Progress κ) (h : keeps σ.kept) :
    EndsIn keeps (g.Fails fails) path (g.solve decide A path σ) := by
  induction g generalizing A path σ with
  | trivial => exact .of_success rfl h
  | impossible reason =>
      refine ⟨h, fun f hf => ⟨⟨reason, []⟩, rfl, ?_⟩⟩
      obtain rfl := Outcome.failure.inj hf
      exact (Failure.after_mk_nil path reason).symm
  | nested c => exact H A path c σ h
  | both g k ihg ihk =>
      have hfirst := ihg A path σ h
      cases hg : (g.solve decide A path σ).1 with
      | success =>
          rw [solve_both_of_success hg]
          exact (ihk A path _ hfirst.kept).imp fun f hf => .inr hf
      | failure f =>
          rw [solve_both_of_failure hg]
          exact hfirst.imp fun f hf => .inl hf
  | either g k ihg ihk =>
      have hfirst := ihg A path σ h
      cases hg : (g.solve decide A path σ).1 with
      | success =>
          rw [solve_either_of_success hg]
          exact hfirst
      | failure f =>
          have hsecond := ihk A path _ hfirst.kept
          rw [solve_either_of_failure hg]
          dsimp only
          split
          · exact .of_success rfl hsecond.kept
          · refine ⟨hsecond.kept, fun f' hf => ?_⟩
            exact hfirst.failure f' (hg.trans hf)
  | within step g ih =>
      have hbody := ih A (path ++ [step]) σ h
      refine ⟨hbody.kept, fun f hf => ?_⟩
      obtain ⟨f', hf', rfl⟩ := hbody.failure f hf
      exact ⟨f'.after [step], ⟨f', hf', rfl⟩, f'.after_append path [step]⟩
  | parameters method g ih =>
      have hbody := ih A path σ h
      rw [solve]
      generalize g.solve decide A path σ = r at hbody ⊢
      rcases r with ⟨_ | f, τ⟩
      · exact .of_success rfl hbody.kept
      · refine ⟨hbody.kept, fun f₁ hf => ?_⟩
        obtain rfl := Outcome.failure.inj hf
        obtain ⟨f', hf', rfl⟩ := hbody.failure f rfl
        exact ⟨f'.asParameter method, ⟨f', hf', rfl⟩, f'.asParameter_after method path⟩
  | fresh sub sup body ih =>
      have hbody : EndsIn keeps
          ((body (σ.supply.drawAll sub).1 ((σ.supply.drawAll sub).2.drawAll sup).1).Fails fails) path
          ((fresh sub sup body).solve decide A path σ) := ih _ _ _ path _ h
      exact hbody.imp fun f hf => ⟨σ.supply, hf⟩

end Solve

section Rules

variable {fails : Constraint → Failure → Prop} {f : Failure}

theorem fails_all_map {α : Type} {g : α → Goal} {xs : List α}
    (h : (all (xs.map g)).Fails fails f) : ∃ x ∈ xs, (g x).Fails fails f := by
  induction xs with
  | nil => exact h.elim
  | cons x xs ih =>
      rcases h with h | h
      · exact ⟨x, List.mem_cons_self, h⟩
      · obtain ⟨y, hy, hf⟩ := ih h
        exact ⟨y, List.mem_cons_of_mem x hy, hf⟩

theorem fails_any_map {α : Type} {otherwise : Goal} {g : α → Goal} {xs : List α}
    (h : (any otherwise (xs.map g)).Fails fails f) :
    xs = [] ∧ otherwise.Fails fails f ∨ ∃ x ∈ xs, (g x).Fails fails f := by
  cases xs with
  | nil => exact .inl ⟨rfl, h⟩
  | cons x xs =>
      refine .inr ⟨x, List.mem_cons_self, ?_⟩
      cases xs with
      | nil => exact h
      | cons y xs => exact h

theorem fails_params {method : Atom} {p q : Params Ty} (h : (params method p q).Fails fails f) :
    p.pairs? q = none ∧ f = ⟨.parameterMismatch method, []⟩ ∨
      ∃ pairs e f', p.pairs? q = some pairs ∧ e ∈ pairs ∧ fails ⟨e.2, e.1⟩ f' ∧
        f = f'.asParameter method := by
  rw [params] at h
  cases hpairs : p.pairs? q with
  | none =>
      rw [hpairs] at h
      exact .inl ⟨rfl, h⟩
  | some pairs =>
      rw [hpairs] at h
      obtain ⟨f', hf', rfl⟩ := h
      obtain ⟨e, he, hf'⟩ := fails_all_map hf'
      exact .inr ⟨pairs, e, f', rfl, he, hf', rfl⟩

theorem fails_blockGiven {method : Atom} {b c : Option Block}
    (h : (blockGiven method b c).Fails fails f) :
    b.isSome ≠ c.isSome ∧ f = ⟨.blockMismatch method, []⟩ := by
  rw [blockGiven] at h
  split at h
  · exact h.elim
  next hne => exact ⟨hne, h⟩

theorem fails_block {method : Atom} {b c : Option Block} (h : (block method b c).Fails fails f) :
    ∃ b' c', b = some b' ∧ c = some c' ∧
      ((params method c'.params b'.params).Fails fails f ∨ fails ⟨b'.result, c'.result⟩ f) := by
  cases b with
  | none => exact h.elim
  | some b =>
      cases c with
      | none => exact h.elim
      | some c => exact ⟨b, c, rfl, rfl, h⟩

theorem fails_overload {method : Atom} {a b : Signature} (h : (overload method a b).Fails fails f) :
    ∃ (s : FreshSupply) (f' : Failure),
      let a' := a.withVars (s.drawAll a.typeParams).1
      let b' := b.withVars ((s.drawAll a.typeParams).2.drawAll b.typeParams).1
      (signature method a' b').Fails fails f' ∧ f = f'.after [.overloads method a' b'] := by
  obtain ⟨s, f', hf', rfl⟩ := h
  exact ⟨s, f', hf', rfl⟩

theorem fails_method {name : Atom} {as bs : List Signature} (h : (method name as bs).Fails fails f) :
    as = [] ∧ bs ≠ [] ∧ f = ⟨.methodMissing name, []⟩ ∨
      ∃ a ∈ as, ∃ b ∈ bs, (overload name a b).Fails fails f := by
  obtain ⟨b, hb, h⟩ := fails_all_map h
  rcases fails_any_map h with ⟨has, hf⟩ | ⟨a, ha, hf⟩
  · exact .inl ⟨has, List.ne_nil_of_mem hb, hf⟩
  · exact .inr ⟨a, ha, b, hb, hf⟩

theorem fails_interface {sub sup : Interface} (h : (interface sub sup).Fails fails f) :
    ∃ q ∈ sup.methods, sub.method? q.name = none ∧ f = ⟨.methodMissing q.name, []⟩ ∨
      ∃ p f', sub.method? q.name = some p ∧
        (method q.name p.overloads q.overloads).Fails fails f' ∧
          f = f'.after [.method q.name] := by
  obtain ⟨q, hq, h⟩ := fails_all_map h
  refine ⟨q, hq, ?_⟩
  cases hp : sub.method? q.name with
  | none =>
      rw [hp] at h
      exact .inl ⟨rfl, h⟩
  | some p =>
      rw [hp] at h
      obtain ⟨f', hf', rfl⟩ := h
      exact .inr ⟨p, f', rfl, hf', rfl⟩

end Rules

/-- Whether there are no alternatives in a goal. -/
def Conjunctive : Goal → Prop
  | trivial => True
  | impossible _ => True
  | nested _ => True
  | both g h => g.Conjunctive ∧ h.Conjunctive
  | either _ _ => False
  | within _ g => g.Conjunctive
  | parameters _ g => g.Conjunctive
  | fresh _ _ body => ∀ vs ws, (body vs ws).Conjunctive

end Goal

/-- A success keeps something, and a failure at a place is one of the given ones, seen from there. -/
structure EndsFirst {κ : Type} (keeps : κ → Prop) (fails : Failure → Prop) (path : Path)
    (r : Outcome × Progress κ) : Prop where
  kept : r.1 = .success → keeps r.2.kept
  failure : ∀ f, r.1 = .failure f → ∃ f', fails f' ∧ f = f'.after path

namespace EndsFirst

variable {κ : Type} {keeps : κ → Prop} {fails fails' : Failure → Prop} {path : Path}
  {r : Outcome × Progress κ}

theorem imp (h : EndsFirst keeps fails path r) (H : ∀ f, fails f → fails' f) :
    EndsFirst keeps fails' path r := by
  refine ⟨h.kept, fun f hf => ?_⟩
  obtain ⟨f', hf', rfl⟩ := h.failure f hf
  exact ⟨f', H f' hf', rfl⟩

end EndsFirst

namespace Goal

section Conjunctive

variable {κ : Type} {decide : Decision κ} {keeps : κ → Prop} {fails : Constraint → Failure → Prop}

/-- Where there are no alternatives the first failure ends it all, so whatever came before it was a
success. -/
theorem Conjunctive.solve_fails
    (H : ∀ A path c σ, keeps σ.kept → EndsFirst keeps (fails c) path (decide A path c σ)) {g : Goal}
    (hg : g.Conjunctive) (A : Assumptions) (path : Path) (σ : Progress κ) (h : keeps σ.kept) :
    EndsFirst keeps (g.Fails fails) path (g.solve decide A path σ) := by
  induction g generalizing A path σ with
  | trivial => exact ⟨fun _ => h, nofun⟩
  | impossible reason =>
      refine ⟨nofun, fun f hf => ⟨⟨reason, []⟩, rfl, ?_⟩⟩
      obtain rfl := Outcome.failure.inj hf
      exact (Failure.after_mk_nil path reason).symm
  | nested c => exact H A path c σ h
  | both g k ihg ihk =>
      have hfirst := ihg hg.1 A path σ h
      cases hout : (g.solve decide A path σ).1 with
      | success =>
          rw [solve_both_of_success hout]
          exact (ihk hg.2 A path _ (hfirst.kept hout)).imp fun f hf => .inr hf
      | failure f =>
          rw [solve_both_of_failure hout]
          exact hfirst.imp fun f hf => .inl hf
  | either g k ihg ihk => exact hg.elim
  | within step g ih =>
      have hbody := ih hg A (path ++ [step]) σ h
      refine ⟨hbody.kept, fun f hf => ?_⟩
      obtain ⟨f', hf', rfl⟩ := hbody.failure f hf
      exact ⟨f'.after [step], ⟨f', hf', rfl⟩, f'.after_append path [step]⟩
  | parameters method g ih =>
      have hbody := ih hg A path σ h
      rw [solve]
      generalize g.solve decide A path σ = r at hbody ⊢
      rcases r with ⟨_ | f, τ⟩
      · refine ⟨fun _ => hbody.kept rfl, fun f hf => ?_⟩
        cases hf
      · refine ⟨fun hsuccess => ?_, fun f₁ hf => ?_⟩
        · cases hsuccess
        · obtain rfl := Outcome.failure.inj hf
          obtain ⟨f', hf', rfl⟩ := hbody.failure f rfl
          exact ⟨f'.asParameter method, ⟨f', hf', rfl⟩, f'.asParameter_after method path⟩
  | fresh sub sup body ih =>
      have hbody : EndsFirst keeps
          ((body (σ.supply.drawAll sub).1 ((σ.supply.drawAll sub).2.drawAll sup).1).Fails fails) path
          ((fresh sub sup body).solve decide A path σ) := ih _ _ (hg _ _) _ path _ h
      exact hbody.imp fun f hf => ⟨σ.supply, hf⟩

theorem conjunctive_all {gs : List Goal} (h : ∀ g ∈ gs, g.Conjunctive) : (all gs).Conjunctive := by
  induction gs with
  | nil => exact True.intro
  | cons g gs ih =>
      exact ⟨h g List.mem_cons_self, ih fun g' hg' => h g' (List.mem_cons_of_mem g hg')⟩

theorem conjunctive_params (name : Atom) (p q : Params Ty) : (params name p q).Conjunctive := by
  unfold params
  split
  · exact True.intro
  next pairs _ =>
    refine conjunctive_all fun g hg => ?_
    obtain ⟨e, _, rfl⟩ := List.mem_map.mp hg
    exact True.intro

theorem conjunctive_signature (name : Atom) (a b : Signature) : (signature name a b).Conjunctive := by
  have hgiven : (blockGiven name a.block b.block).Conjunctive := by
    unfold blockGiven
    split <;> exact True.intro
  have hblock : (block name a.block b.block).Conjunctive := by
    cases a.block with
    | none => exact True.intro
    | some x =>
        cases b.block with
        | none => exact True.intro
        | some y => exact ⟨conjunctive_params name y.params x.params, True.intro⟩
  exact ⟨conjunctive_params name a.params b.params, hgiven, hblock, True.intro, True.intro⟩

theorem conjunctive_method (name : Atom) (a : Signature) (bs : List Signature) :
    (method name [a] bs).Conjunctive := by
  apply conjunctive_all
  intro g hg
  obtain ⟨b, _, rfl⟩ := List.mem_map.mp hg
  intro vs ws
  exact conjunctive_signature name _ _

end Conjunctive

end Goal

end Subtyping
