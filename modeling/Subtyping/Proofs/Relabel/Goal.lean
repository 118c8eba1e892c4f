import Mathlib.Logic.Equiv.Basic
import Subtyping.Proofs.Params.Pairing
import Subtyping.Proofs.Relabel.Signature

/-!
# Relabelling the variables of goals

The rules treat all variables alike: at a relabelled constraint they ask for the relabelled goals
(`Store.goal_relabels`). A goal that stays the same under all labellings that leave some variables
alone is supported by these variables, and so are its parts. The goal of a constraint is supported
by the variables of the store and of the constraint, so nothing else occurs in what it asks for.
-/

namespace Subtyping

/-- A constraint with other variables in the places of its variables. -/
def Constraint.relabel (ρ : TypeVar → TypeVar) (c : Constraint) : Constraint :=
  ⟨c.sub.relabel ρ, c.sup.relabel ρ⟩

/-- A step with other variables in the places of its variables. -/
def Step.relabel (ρ : TypeVar → TypeVar) : Step → Step
  | .types c => .types (c.relabel ρ)
  | .method name => .method name
  | .overloads name sub sup => .overloads name (sub.relabel ρ) (sup.relabel ρ)

/-- A reason with other variables in the places of its variables. -/
def Reason.relabel (ρ : TypeVar → TypeVar) : Reason → Reason
  | .unknownPair c => .unknownPair (c.relabel ρ)
  | reason => reason

theorem Constraint.vars_relabel {ρ : TypeVar → TypeVar} (c : Constraint) :
    (c.relabel ρ).vars = c.vars.map ρ := by
  rw [vars, vars, relabel, Ty.vars_relabel, Ty.vars_relabel, List.map_append]

theorem Constraint.relabel_eq_self {ρ : TypeVar → TypeVar} {c : Constraint}
    (h : ∀ v ∈ c.vars, ρ v = v) : c.relabel ρ = c := by
  have hsub := Ty.relabel_eq_self fun v hv => h v (List.mem_append_left _ hv)
  have hsup := Ty.relabel_eq_self fun v hv => h v (List.mem_append_right _ hv)
  rw [relabel, hsub, hsup]

theorem Constraint.relabel_injective {ρ : TypeVar → TypeVar} (hρ : Function.Injective ρ) :
    Function.Injective (relabel ρ) := by
  intro c d h
  have hsub := Ty.relabel_injective hρ (congrArg sub h)
  have hsup := Ty.relabel_injective hρ (congrArg sup h)
  cases c
  cases d
  exact congrArg₂ mk hsub hsup

namespace Goal

/-- The second goal is the first one with other variables. -/
inductive Relabels (ρ : TypeVar → TypeVar) : Goal → Goal → Prop
  | trivial : Relabels ρ trivial trivial
  | impossible (reason : Reason) : Relabels ρ (impossible reason) (impossible (reason.relabel ρ))
  | nested (c : Constraint) : Relabels ρ (nested c) (nested (c.relabel ρ))
  | both {g g' h h' : Goal} (hg : Relabels ρ g g') (hh : Relabels ρ h h') :
      Relabels ρ (both g h) (both g' h')
  | either {g g' h h' : Goal} (hg : Relabels ρ g g') (hh : Relabels ρ h h') :
      Relabels ρ (either g h) (either g' h')
  | within (step : Step) {g g' : Goal} (hg : Relabels ρ g g') :
      Relabels ρ (within step g) (within (step.relabel ρ) g')
  | parameters (method : Atom) {g g' : Goal} (hg : Relabels ρ g g') :
      Relabels ρ (parameters method g) (parameters method g')
  | fresh (sub sup : List TypeVar) {body body' : List TypeVar → List TypeVar → Goal}
      (h : ∀ vs ws, Relabels ρ (body vs ws) (body' (vs.map ρ) (ws.map ρ))) :
      Relabels ρ (fresh sub sup body) (fresh (sub.map ρ) (sup.map ρ) body')

namespace Relabels

variable {ρ : TypeVar → TypeVar}

theorem all {α : Type} {f f' : α → Goal} {xs : List α}
    (h : ∀ x ∈ xs, Relabels ρ (f x) (f' x)) :
    Relabels ρ (Goal.all (xs.map f)) (Goal.all (xs.map f')) := by
  induction xs with
  | nil => exact .trivial
  | cons x xs ih =>
      have hx := h x List.mem_cons_self
      have hxs := ih fun y hy => h y (List.mem_cons_of_mem x hy)
      exact .both hx hxs

theorem any {α : Type} {f f' : α → Goal} {g g' : Goal} (hg : Relabels ρ g g') {xs : List α}
    (h : ∀ x ∈ xs, Relabels ρ (f x) (f' x)) :
    Relabels ρ (Goal.any g (xs.map f)) (Goal.any g' (xs.map f')) := by
  induction xs with
  | nil => exact hg
  | cons x xs ih =>
      have hx := h x List.mem_cons_self
      have hxs := ih fun y hy => h y (List.mem_cons_of_mem x hy)
      cases xs with
      | nil => exact hx
      | cons y xs => exact .either hx hxs

end Relabels

section Rules

variable {ρ : TypeVar → TypeVar}

theorem params_relabels (method : Atom) (p q : Params Ty) :
    Relabels ρ (params method p q)
      (params method (p.map (Ty.relabel ρ)) (q.map (Ty.relabel ρ))) := by
  rw [params, params, Params.pairs?_map]
  cases p.pairs? q with
  | none => exact .impossible (.parameterMismatch method)
  | some pairs =>
      rw [Option.map_some]
      dsimp only
      rw [List.map_map]
      exact .parameters method (.all fun e _ => .nested ⟨e.2, e.1⟩)

theorem blockGiven_relabels (method : Atom) (sub sup : Option Block) :
    Relabels ρ (blockGiven method sub sup)
      (blockGiven method (sub.map (Block.mapTypes (Ty.relabel ρ)))
        (sup.map (Block.mapTypes (Ty.relabel ρ)))) := by
  rw [blockGiven, blockGiven, Option.isSome_map, Option.isSome_map]
  split
  · exact .trivial
  · exact .impossible (.blockMismatch method)

theorem block_relabels (method : Atom) (sub sup : Option Block) :
    Relabels ρ (block method sub sup)
      (block method (sub.map (Block.mapTypes (Ty.relabel ρ)))
        (sup.map (Block.mapTypes (Ty.relabel ρ)))) := by
  cases sub with
  | none => exact .trivial
  | some b =>
      cases sup with
      | none => exact .trivial
      | some c => exact .both (params_relabels method c.params b.params) (.nested ⟨b.result, c.result⟩)

theorem signature_relabels (method : Atom) (sub sup : Signature) :
    Relabels ρ (signature method sub sup)
      (signature method (sub.relabel ρ) (sup.relabel ρ)) := by
  have hparams := params_relabels (ρ := ρ) method sub.params sup.params
  have hgiven := blockGiven_relabels (ρ := ρ) method sub.block sup.block
  have hblock := block_relabels (ρ := ρ) method sub.block sup.block
  have hresult : Relabels ρ (nested ⟨sub.result, sup.result⟩) _ := .nested _
  exact .both hparams (.both hgiven (.both hblock (.both hresult .trivial)))

theorem overload_relabels (hρ : Function.Injective ρ) (method : Atom) (sub sup : Signature) :
    Relabels ρ (overload method sub sup) (overload method (sub.relabel ρ) (sup.relabel ρ)) := by
  refine .fresh sub.typeParams sup.typeParams fun vs ws => ?_
  dsimp only
  rw [Signature.relabel_withVars hρ, Signature.relabel_withVars hρ]
  exact .within _ (signature_relabels method _ _)

theorem method_relabels (hρ : Function.Injective ρ) (name : Atom) (sub sup : List Signature) :
    Relabels ρ (method name sub sup)
      (method name (sub.map (Signature.relabel ρ)) (sup.map (Signature.relabel ρ))) := by
  rw [method, method, List.map_map]
  refine .all fun q _ => ?_
  rw [Function.comp_apply, List.map_map]
  exact .any (.impossible (.methodMissing name)) fun p _ => overload_relabels hρ name p q

theorem interface_relabels (hρ : Function.Injective ρ) (sub sup : Interface) :
    Relabels ρ (interface sub sup) (interface (sub.relabel ρ) (sup.relabel ρ)) := by
  have hmethods : (sup.relabel ρ).methods = sup.methods.map (Method.relabel ρ) := rfl
  rw [interface, interface, hmethods, List.map_map]
  refine .all fun q _ => ?_
  have hname : (q.relabel ρ).name = q.name := rfl
  rw [Function.comp_apply, hname, Interface.method?_relabel]
  cases sub.method? q.name with
  | none => exact .impossible (.methodMissing q.name)
  | some p => exact .within (.method q.name) (method_relabels hρ q.name p.overloads q.overloads)

end Rules

end Goal

section Shapes

variable {ρ : TypeVar → TypeVar}

private theorem unknownPair_relabels {t u t' u' : Ty} (ht : t.relabel ρ = t')
    (hu : u.relabel ρ = u') :
    Goal.Relabels ρ (.impossible (.unknownPair ⟨t, u⟩)) (.impossible (.unknownPair ⟨t', u'⟩)) := by
  subst ht hu
  exact .impossible (.unknownPair ⟨t, u⟩)

private theorem every_relabels {t t' : Ty} (ht : t.relabel ρ = t') (us : List Ty) :
    Goal.Relabels ρ (.all (us.map fun u => .nested ⟨t, u⟩))
      (.all ((us.map (Ty.relabel ρ)).map fun u => .nested ⟨t', u⟩)) := by
  subst ht
  rw [List.map_map]
  exact .all fun u _ => .nested ⟨t, u⟩

private theorem some_relabels {u u' : Ty} (ts : List Ty) (hu : u.relabel ρ = u') :
    Goal.Relabels ρ
      (.any (.impossible (.unknownPair ⟨.union ts, u⟩)) (ts.map fun t => .nested ⟨t, u⟩))
      (.any (.impossible (.unknownPair ⟨.union (ts.map (Ty.relabel ρ)), u'⟩))
        ((ts.map (Ty.relabel ρ)).map fun t => .nested ⟨t, u'⟩)) := by
  subst hu
  rw [List.map_map]
  exact .any (unknownPair_relabels (Ty.relabel_union ts) rfl) fun t _ => .nested ⟨t, u⟩

private theorem names_relabels (hρ : Function.Injective ρ) {store : Store}
    (h : ∀ v ∈ store.vars, ρ v = v) (n n' : Atom) (k k' : NameKind) (ts us : List Ty) :
    Goal.Relabels ρ
      (match store.expand n k ts, store.expand n' k' us with
        | .ok sub, .ok sup => .interface sub sup
        | _, _ => .impossible (.unknownPair ⟨.name n k ts, .name n' k' us⟩))
      (match store.expand n k (ts.map (Ty.relabel ρ)),
          store.expand n' k' (us.map (Ty.relabel ρ)) with
        | .ok sub, .ok sup => .interface sub sup
        | _, _ => .impossible (.unknownPair
            ⟨.name n k (ts.map (Ty.relabel ρ)), .name n' k' (us.map (Ty.relabel ρ))⟩)) := by
  have hunknown := unknownPair_relabels (ρ := ρ) (Ty.relabel_name n k ts) (Ty.relabel_name n' k' us)
  rw [Store.expand_relabel hρ h, Store.expand_relabel hρ h]
  cases store.expand n k ts with
  | error e => cases store.expand n' k' us <;> exact hunknown
  | ok i =>
      cases store.expand n' k' us with
      | error e => exact hunknown
      | ok j => exact Goal.interface_relabels hρ i j

/-- The rules ask at a relabelled constraint for the relabelled goals. -/
theorem Store.goal_relabels (hρ : Function.Injective ρ) {store : Store}
    (h : ∀ v ∈ store.vars, ρ v = v) (c : Constraint) :
    (store.goal c).Relabels ρ (store.goal (c.relabel ρ)) := by
  rcases c with ⟨sub, sup⟩
  have hinj := Ty.relabel_injective hρ
  have hany : ∀ t : Ty, t.relabel ρ = .any ↔ t = .any := fun t => hinj.eq_iff' Ty.relabel_any
  have hsame : (sub.relabel ρ = sup.relabel ρ ∨ sub.relabel ρ = .any ∨ sup.relabel ρ = .any) ↔
      (sub = sup ∨ sub = .any ∨ sup = .any) := by
    rw [hinj.eq_iff, hany, hany]
  unfold Store.goal
  simp only [Constraint.relabel, hsame]
  split
  · exact .trivial
  -- every pair of shapes comes to one of the lines of the table of rules
  · cases sub <;> cases sup <;>
      simp only [Ty.relabel_any, Ty.relabel_void, Ty.relabel_nil, Ty.relabel_bool,
        Ty.relabel_placeholder, Ty.relabel_var, Ty.relabel_name, Ty.relabel_union,
        Ty.relabel_inter, Ty.relabel_proc]
    all_goals first
      | exact .trivial
      | exact names_relabels hρ h _ _ _ _ _ _
      | exact every_relabels (by simp) _
      | exact some_relabels _ (by simp)
      | exact unknownPair_relabels (by simp) (by simp)

end Shapes

namespace Goal

section Inversion

variable {ρ : TypeVar → TypeVar}

private theorem eq_of_nested_relabels {c : Constraint} {k : Goal} (h : Relabels ρ (nested c) k) :
    k = nested (c.relabel ρ) := by
  cases h
  rfl

private theorem exists_of_within_relabels {step : Step} {g k : Goal} (h : Relabels ρ (within step g) k) :
    ∃ g', k = within (step.relabel ρ) g' ∧ Relabels ρ g g' := by
  cases h with
  | within _ hg => exact ⟨_, rfl, hg⟩

private theorem exists_of_fresh_relabels {sub sup : List TypeVar}
    {body : List TypeVar → List TypeVar → Goal} {k : Goal} (h : Relabels ρ (fresh sub sup body) k) :
    ∃ body', k = fresh (sub.map ρ) (sup.map ρ) body' ∧
      ∀ vs ws, Relabels ρ (body vs ws) (body' (vs.map ρ) (ws.map ρ)) := by
  cases h with
  | fresh _ _ hbody => exact ⟨_, rfl, hbody⟩

end Inversion

/-- No variable outside the list matters to the goal. -/
def Supported (vs : List TypeVar) (g : Goal) : Prop :=
  ∀ ρ : TypeVar → TypeVar, Function.Injective ρ → (∀ v ∈ vs, ρ v = v) → g.Relabels ρ g

private theorem exists_id_lt (vs : List TypeVar) : ∃ n, ∀ v ∈ vs, v.id < n := by
  induction vs with
  | nil => exact ⟨0, by simp⟩
  | cons v vs ih =>
      obtain ⟨n, hn⟩ := ih
      refine ⟨max n (v.id + 1), fun w hw => ?_⟩
      rcases List.mem_cons.mp hw with rfl | hw
      · omega
      · have := hn w hw
        omega

namespace Supported

variable {vs : List TypeVar} {g h : Goal}

theorem mem_of_mem_vars {c : Constraint} (hs : (nested c).Supported vs) {v : TypeVar}
    (hv : v ∈ c.vars) : v ∈ vs := by
  by_contra hnot
  obtain ⟨n, hn⟩ := exists_id_lt (vs ++ c.vars)
  have hout : ∀ u ∈ vs ++ c.vars, u ≠ ⟨v.name, n⟩ := by
    rintro u hu rfl
    exact Nat.lt_irrefl n (hn _ hu)
  -- exchanging the variable for one that occurs nowhere would change the constraint
  have hfix : ∀ u ∈ vs, Equiv.swap v ⟨v.name, n⟩ u = u := by
    intro u hu
    apply Equiv.swap_apply_of_ne_of_ne
    · rintro rfl
      exact hnot hu
    · exact hout u (List.mem_append_left _ hu)
  have hsame := eq_of_nested_relabels (hs _ (Equiv.swap v ⟨v.name, n⟩).injective hfix)
  have hvars : c.vars = c.vars.map (Equiv.swap v ⟨v.name, n⟩) := by
    rw [← Constraint.vars_relabel]
    exact congrArg Constraint.vars (nested.inj hsame)
  have hmem : (⟨v.name, n⟩ : TypeVar) ∈ c.vars := by
    rw [hvars]
    exact List.mem_map.mpr ⟨v, hv, Equiv.swap_apply_left v _⟩
  exact hout _ (List.mem_append_right _ hmem) rfl

theorem both_left (hs : (both g h).Supported vs) : g.Supported vs := by
  intro ρ hρ hvs
  cases hs ρ hρ hvs with
  | both hg _ => exact hg

theorem both_right (hs : (both g h).Supported vs) : h.Supported vs := by
  intro ρ hρ hvs
  cases hs ρ hρ hvs with
  | both _ hh => exact hh

theorem either_left (hs : (either g h).Supported vs) : g.Supported vs := by
  intro ρ hρ hvs
  cases hs ρ hρ hvs with
  | either hg _ => exact hg

theorem either_right (hs : (either g h).Supported vs) : h.Supported vs := by
  intro ρ hρ hvs
  cases hs ρ hρ hvs with
  | either _ hh => exact hh

theorem within {step : Step} (hs : (Goal.within step g).Supported vs) : g.Supported vs := by
  intro ρ hρ hvs
  obtain ⟨g', he, hg⟩ := exists_of_within_relabels (hs ρ hρ hvs)
  rwa [← (Goal.within.inj he).2] at hg

theorem parameters {method : Atom} (hs : (Goal.parameters method g).Supported vs) :
    g.Supported vs := by
  intro ρ hρ hvs
  cases hs ρ hρ hvs with
  | parameters _ hg => exact hg

theorem fresh {sub sup : List TypeVar} {body : List TypeVar → List TypeVar → Goal}
    (hs : (Goal.fresh sub sup body).Supported vs) (us ws : List TypeVar) :
    (body us ws).Supported (us ++ ws ++ vs) := by
  intro ρ hρ hfix
  obtain ⟨body', he, hbody⟩ := exists_of_fresh_relabels
    (hs ρ hρ fun v hv => hfix v (List.mem_append_right _ hv))
  have hus : us.map ρ = us := by
    have := List.map_congr_left (g := id) fun v hv =>
      hfix v (List.mem_append_left _ (List.mem_append_left ws hv))
    rwa [List.map_id] at this
  have hws : ws.map ρ = ws := by
    have := List.map_congr_left (g := id) fun v hv =>
      hfix v (List.mem_append_left _ (List.mem_append_right us hv))
    rwa [List.map_id] at this
  have := hbody us ws
  rwa [hus, hws, ← (Goal.fresh.inj he).2.2] at this

end Supported

end Goal

theorem Store.goal_supported (store : Store) (c : Constraint) :
    (store.goal c).Supported (store.vars ++ c.vars) := by
  intro ρ hρ hfix
  have hc : c.relabel ρ = c :=
    Constraint.relabel_eq_self fun v hv => hfix v (List.mem_append_right _ hv)
  have := store.goal_relabels hρ (fun v hv => hfix v (List.mem_append_left _ hv)) c
  rwa [hc] at this

end Subtyping
