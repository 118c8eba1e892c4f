import Subtyping.Proofs.Signature.Untouched

/-!
# Capture of type parameters

A signature under a substitution keeps its own type parameters, also when a type that is put in
mentions a variable of the same name. Such a variable is then bound, and a signature that is
instantiated afterwards is not the one that is instantiated first (`instantiate_subst_eq_iff`).
-/

namespace Subtyping

namespace Substitution

variable {vs ws : List TypeVar}

theorem placeholder?_rename (p : Placeholder) : (rename vs ws).placeholder? p = none := by
  cases p <;> rfl

theorem get?_rename_of_notMem {v : TypeVar} (h : v ∉ vs) : (rename vs ws).get? v = none :=
  get?_pairing_of_notMem _ h

theorem eq_var_of_get?_rename {v : TypeVar} {t : Ty} (h : (rename vs ws).get? v = some t) :
    ∃ w ∈ ws, t = .var w := by
  obtain ⟨w, hw, hvar⟩ := List.mem_map.mp (mem_of_get?_pairing h).2
  exact ⟨w, hw, hvar.symm⟩

theorem get?_rename_of_mem (hlen : ws.length = vs.length) {v : TypeVar} (h : v ∈ vs) :
    ∃ w ∈ ws, (rename vs ws).get? v = some (.var w) := by
  have hlen' : vs.length ≤ (ws.map Ty.var).length := by simp [hlen]
  have hsome : (rename vs ws).get? v ≠ none := get?_pairing_ne_none hlen' h
  obtain ⟨t, ht⟩ := Option.ne_none_iff_exists'.mp hsome
  obtain ⟨w, hw, rfl⟩ := eq_var_of_get?_rename ht
  exact ⟨w, hw, ht⟩

theorem isNormal_rename (vs ws : List TypeVar) : (rename vs ws).IsNormal := by
  apply isNormal_pairing
  intro t ht
  obtain ⟨w, _, rfl⟩ := List.mem_map.mp ht
  exact Ty.isNormal_var w

/-- Whether a substitution may put a type into one that has the given variables. -/
def Supplies (s : Substitution) (vs : List TypeVar) (t : Ty) : Prop :=
  (∃ v ∈ vs, s.get? v = some t) ∨ ∃ p, s.placeholder? p = some t

end Substitution

theorem Ty.mem_vars_rename {vs ws : List TypeVar} (hlen : ws.length = vs.length) {t : Ty}
    {v : TypeVar} (hv : v ∈ (t.subst (.rename vs ws)).vars) : (v ∈ t.vars ∧ v ∉ vs) ∨ v ∈ ws := by
  cases mem_vars_subst hv with
  | stays hvt hnone =>
      refine .inl ⟨hvt, fun hmem => ?_⟩
      obtain ⟨w, _, hw⟩ := Substitution.get?_rename_of_mem hlen hmem
      rw [hnone] at hw
      cases hw
  | image _ hw hvt =>
      right
      obtain ⟨w, hw, rfl⟩ := Substitution.eq_var_of_get?_rename hw
      rwa [List.mem_singleton.mp hvt]
  | placeholder hp _ =>
      rw [Substitution.placeholder?_rename] at hp
      cases hp

namespace Signature

variable {m : Signature} {s r : Substitution}

theorem instantiate_congr (h : ∀ t ∈ m.types, t.subst s = t.subst r) :
    m.instantiate s = m.instantiate r := by
  rw [instantiate, instantiate, mapTypes_congr h]

theorem instantiate_instantiate (hr : r.IsNormal) (m : Signature) (s : Substitution) :
    (m.instantiate s).instantiate r = m.instantiate (s.andThen r) := by
  have hmap : ((m.mapTypes (Ty.subst s)).mapTypes (Ty.subst r)) =
      m.mapTypes (Ty.subst (s.andThen r)) := by
    rw [mapTypes_mapTypes]
    exact mapTypes_congr fun t _ => Ty.subst_subst hr s t
  calc (m.instantiate s).instantiate r
      = { (m.mapTypes (Ty.subst s)).mapTypes (Ty.subst r) with typeParams := [] } := rfl
    _ = m.instantiate (s.andThen r) := by rw [hmap, instantiate]

theorem instantiate_subst (hr : r.IsNormal) (m : Signature) (s : Substitution) :
    (m.subst s).instantiate r = m.instantiate ((s.except m.typeParams).andThen r) := by
  unfold subst
  split
  next h =>
    -- the signature is passed by, and there is nothing in it to replace
    obtain ⟨hp, hv⟩ := untouched h
    apply instantiate_congr
    intro t ht
    apply Ty.subst_congr
    · intro v hvt
      rw [Substitution.get?_andThen, Substitution.get?_except]
      by_cases hown : v ∈ m.typeParams
      · rw [if_pos hown]
        rfl
      · rw [if_neg hown, hv v (mem_freeVars ht hvt hown)]
        rfl
    · intro p
      rw [Substitution.placeholder?_andThen, Substitution.placeholder?_except, hp p]
      rfl
  next => exact instantiate_instantiate hr m (s.except m.typeParams)

theorem instantiate_eq_self_iff (hown : m.typeParams = []) :
    m.instantiate r = m ↔ ∀ t ∈ m.types, t.subst r = t := by
  constructor
  · intro h
    have hmap : m.types.map (Ty.subst r) = m.types.map id := by
      rw [← types_instantiate, h, List.map_id]
    exact List.map_inj_left.mp hmap
  · intro h
    have hmap : m.mapTypes (Ty.subst r) = m.mapTypes id := mapTypes_congr h
    rw [instantiate, hmap, mapTypes_id, ← hown]

section Renamed

variable {ws : List TypeVar}

theorem notMem_vars_rename (hlen : ws.length = m.typeParams.length)
    (hnew : ∀ w ∈ ws, w ∉ m.typeParams) (t : Ty) {v : TypeVar} (hv : v ∈ m.typeParams) :
    v ∉ (t.subst (.rename m.typeParams ws)).vars := by
  intro hvt
  rcases Ty.mem_vars_rename hlen hvt with ⟨_, hown⟩ | hw
  · exact hown hv
  · exact hnew v hw hv

/-- A signature that is instantiated last is the one that is instantiated first, and once more. -/
theorem instantiate_subst_rename (hlen : ws.length = m.typeParams.length)
    (hnew : ∀ w ∈ ws, w ∉ m.typeParams ∧ s.get? w = none) :
    (m.subst s).instantiate (.rename m.typeParams ws) =
      ((m.instantiate (.rename m.typeParams ws)).subst s).instantiate
        (.rename m.typeParams ws) := by
  have hr := Substitution.isNormal_rename m.typeParams ws
  have hnone : (m.instantiate (.rename m.typeParams ws)).typeParams = [] := rfl
  rw [instantiate_subst hr, instantiate_subst hr, hnone, Substitution.except_nil,
    instantiate_instantiate (hr.andThen s)]
  apply instantiate_congr
  intro t _
  apply Ty.subst_congr
  · intro v _
    rw [Substitution.get?_andThen, Substitution.get?_andThen, Substitution.get?_andThen,
      Substitution.get?_except]
    by_cases hown : v ∈ m.typeParams
    · obtain ⟨w, hw, hget⟩ := Substitution.get?_rename_of_mem hlen hown
      have hstay : (Ty.var w).subst (s.andThen (.rename m.typeParams ws)) = .var w := by
        rw [Ty.subst_var, Substitution.get?_andThen, (hnew w hw).2,
          Substitution.get?_rename_of_notMem (hnew w hw).1]
        rfl
      rw [if_pos hown, hget, Option.map_some, hstay]
      rfl
    · rw [if_neg hown, Substitution.get?_rename_of_notMem hown]
      rfl
  · intro p
    rw [Substitution.placeholder?_andThen, Substitution.placeholder?_andThen,
      Substitution.placeholder?_andThen, Substitution.placeholder?_except,
      Substitution.placeholder?_rename]
    rfl

theorem types_subst_rename (hlen : ws.length = m.typeParams.length)
    (hnew : ∀ w ∈ ws, w ∉ m.typeParams ∧ s.get? w = none)
    (hs : ∀ t, s.Supplies m.freeVars t → t.IsNormal ∧ ∀ v ∈ m.typeParams, v ∉ t.vars) :
    ∀ t ∈ ((m.instantiate (.rename m.typeParams ws)).subst s).types,
      t.IsNormal ∧ ∀ v ∈ m.typeParams, v ∉ t.vars := by
  have hr := Substitution.isNormal_rename m.typeParams ws
  have hnormal : ∀ t ∈ (m.instantiate (.rename m.typeParams ws)).types, t.IsNormal := by
    intro t ht
    rw [types_instantiate] at ht
    obtain ⟨u, _, rfl⟩ := List.mem_map.mp ht
    exact hr.subst u
  rw [subst_eq_instantiate rfl hnormal, types_instantiate, types_instantiate, List.map_map]
  intro t ht
  obtain ⟨u, hu, rfl⟩ := List.mem_map.mp ht
  -- what comes for a variable of the instance comes for a free variable of the signature
  have hsupplies : ∀ v ∈ (u.subst (.rename m.typeParams ws)).vars, ∀ t, s.get? v = some t →
      s.Supplies m.freeVars t := by
    intro v hv t hget
    rcases Ty.mem_vars_rename hlen hv with ⟨hvt, hown⟩ | hw
    · exact .inl ⟨v, mem_freeVars hu hvt hown, hget⟩
    · rw [(hnew v hw).2] at hget
      cases hget
  constructor
  · apply Ty.isNormal_subst
    · intro v hv t hget
      exact (hs t (hsupplies v hv t hget)).1
    · intro p t hget
      exact (hs t (.inr ⟨p, hget⟩)).1
  · intro v hown hv
    cases Ty.mem_vars_subst hv with
    | stays hvt _ => exact notMem_vars_rename hlen (fun w hw => (hnew w hw).1) u hown hvt
    | image hw hget hvt => exact (hs _ (hsupplies _ hw _ hget)).2 v hown hvt
    | placeholder hget hvt => exact (hs _ (.inr ⟨_, hget⟩)).2 v hown hvt

/-- Substituting before and after a signature is instantiated at new variables gives the same
signature if and only if nothing that the substitution put in has to be put together anew or
mentions one of the type parameters. -/
theorem instantiate_subst_eq_iff (hlen : ws.length = m.typeParams.length)
    (hnew : ∀ w ∈ ws, w ∉ m.typeParams ∧ s.get? w = none) :
    ((m.subst s).instantiate (.rename m.typeParams ws) =
        (m.instantiate (.rename m.typeParams ws)).subst s ↔
      ∀ t ∈ ((m.instantiate (.rename m.typeParams ws)).subst s).types,
        t.IsNormal ∧ ∀ v ∈ m.typeParams, v ∉ t.vars) ∧
    ((∀ t, s.Supplies m.freeVars t → t.IsNormal ∧ ∀ v ∈ m.typeParams, v ∉ t.vars) →
      (m.subst s).instantiate (.rename m.typeParams ws) =
        (m.instantiate (.rename m.typeParams ws)).subst s) := by
  have hr := Substitution.isNormal_rename m.typeParams ws
  have hown : ((m.instantiate (.rename m.typeParams ws)).subst s).typeParams = [] := by
    unfold subst
    split <;> rfl
  have hiff : (m.subst s).instantiate (.rename m.typeParams ws) =
        (m.instantiate (.rename m.typeParams ws)).subst s ↔
      ∀ t ∈ ((m.instantiate (.rename m.typeParams ws)).subst s).types,
        t.IsNormal ∧ ∀ v ∈ m.typeParams, v ∉ t.vars := by
    rw [instantiate_subst_rename hlen hnew, instantiate_eq_self_iff hown]
    refine forall₂_congr fun t _ => ?_
    constructor
    · intro ht
      refine ⟨?_, fun v hv hvt => ?_⟩
      · rw [← ht]
        exact hr.subst t
      · rw [← ht] at hvt
        exact notMem_vars_rename hlen (fun w hw => (hnew w hw).1) t hv hvt
    · rintro ⟨hnormal, hvars⟩
      apply Ty.subst_eq_self hnormal
      · intro v hvt
        exact Substitution.get?_rename_of_notMem fun hv => hvars v hv hvt
      · exact Substitution.placeholder?_rename
  exact ⟨hiff, fun hs => hiff.mpr (types_subst_rename hlen hnew hs)⟩

end Renamed

/-- A signature with one type parameter, the variable of the first number, which its result is. It
takes one argument, the variable of the second number. -/
def second : Signature where
  typeParams := [⟨⟨1⟩, 0⟩]
  params := { required := [.var ⟨⟨2⟩, 0⟩] }
  result := .var ⟨⟨1⟩, 0⟩

/-- A type without variables may be put in before or after. -/
theorem instantiate_subst_second_nil :
    (second.subst (.pairing [⟨⟨2⟩, 0⟩] [.nil])).instantiate
        (.rename second.typeParams [⟨⟨3⟩, 0⟩]) =
      (second.instantiate (.rename second.typeParams [⟨⟨3⟩, 0⟩])).subst
        (.pairing [⟨⟨2⟩, 0⟩] [.nil]) := by
  have hlen : [(⟨⟨3⟩, 0⟩ : TypeVar)].length = second.typeParams.length := rfl
  have hnew : ∀ w ∈ [(⟨⟨3⟩, 0⟩ : TypeVar)], w ∉ second.typeParams ∧
      (Substitution.pairing [⟨⟨2⟩, 0⟩] [.nil]).get? w = none := by
    decide
  apply (instantiate_subst_eq_iff hlen hnew).2
  intro t ht
  have hnil : t = .nil := by
    rcases ht with ⟨v, _, hv⟩ | ⟨p, hp⟩
    · exact List.mem_singleton.mp (Substitution.mem_of_get?_pairing hv).2
    · cases p <;> cases hp
  rw [hnil]
  exact ⟨Ty.isNormal_nil, fun v _ => List.not_mem_nil⟩

/-- The type parameter itself, put in for the other variable, is bound: it is renamed with the
result although it was another variable of that name. -/
theorem not_instantiate_subst_second :
    (⟨⟨3⟩, 0⟩ : TypeVar) ∉ second.typeParams ++ second.types.flatMap Ty.vars ∧
      ((⟨⟨1⟩, 0⟩ : TypeVar) ∈ second.typeParams ∧ (⟨⟨2⟩, 0⟩ : TypeVar) ∈ second.freeVars) ∧
      ((second.subst (.pairing [⟨⟨2⟩, 0⟩] [.var ⟨⟨1⟩, 0⟩])).instantiate
          (.rename second.typeParams [⟨⟨3⟩, 0⟩]) ≠
        (second.instantiate (.rename second.typeParams [⟨⟨3⟩, 0⟩])).subst
          (.pairing [⟨⟨2⟩, 0⟩] [.var ⟨⟨1⟩, 0⟩])) := by
  decide +kernel

end Signature

end Subtyping
