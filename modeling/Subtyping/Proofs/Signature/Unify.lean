import Subtyping.Proofs.Signature.Hygiene

/-!
# Type parameters of unified overloads

Before two overloads are unified, all type parameters of both are renamed, whether the other side
mentions them or not. So, unlike a join or a meet, the unified overload binds no variable of either
overload, and what is free in it is free in one of them (`unify_hygienic`).
-/

namespace Subtyping

theorem FreshSupply.drawAll_append (s : FreshSupply) (vs ws : List TypeVar) :
    (s.drawAll (vs ++ ws)).1 = (s.drawAll vs).1 ++ ((s.drawAll vs).2.drawAll ws).1 := by
  induction vs generalizing s with
  | nil => rfl
  | cons v vs ih => simp [drawAll, ih]

namespace Signature

variable {a b : Signature} {supply : FreshSupply} {v : TypeVar}

theorem mem_vars_freshened {m : Signature} {t : Ty} (ht : t ∈ (m.freshened supply).types)
    (hv : v ∈ t.vars) : v ∈ m.freeVars ∨ v ∈ (supply.drawAll m.typeParams).1 := by
  rw [freshened, types_instantiate] at ht
  obtain ⟨u, hu, rfl⟩ := List.mem_map.mp ht
  rcases Ty.mem_vars_rename (supply.length_drawAll m.typeParams) hv with ⟨hvu, hown⟩ | hnew
  · exact .inl (mem_freeVars hu hvu hown)
  · exact .inr hnew

theorem typeParams_unify_eq :
    (a.unify b supply).1.typeParams = (supply.drawAll (a.typeParams ++ b.typeParams)).1 :=
  (supply.drawAll_append a.typeParams b.typeParams).symm

theorem mem_freeVars_of_unify (h : v ∈ (a.unify b supply).1.freeVars) :
    v ∈ a.freeVars ∨ v ∈ b.freeVars := by
  obtain ⟨⟨t, ht, hvt⟩, hbound⟩ := mem_freeVars_iff.mp h
  have hunbound : v ∉ (supply.drawAll a.typeParams).1 ∧
      v ∉ ((supply.drawAll a.typeParams).2.drawAll b.typeParams).1 := by
    rwa [typeParams_unify_eq, FreshSupply.drawAll_append, List.mem_append, not_or] at hbound
  rw [or_iff_not_and_not]
  rintro ⟨hva, hvb⟩
  refine all_unify (carriesOver_notMem_vars v) (fun u hu hvu => ?_) (fun u hu hvu => ?_) t ht hvt
  · exact (mem_vars_freshened hu hvu).elim hva hunbound.1
  · exact (mem_vars_freshened hu hvu).elim hvb hunbound.2

/-- The type parameters of a unified overload are distinct and new to both overloads, and its free
variables are free in one of them. So it binds no variable that is free in either, and leaves a type
parameter of one free only where it is free in the other. -/
theorem unify_hygienic (hs : supply.Above (a.vars ++ b.vars)) :
    (a.unify b supply).1.typeParams.Nodup ∧
      (∀ v ∈ (a.unify b supply).1.typeParams, v ∉ a.vars ∧ v ∉ b.vars) ∧
      (∀ v ∈ (a.unify b supply).1.freeVars, v ∈ a.freeVars ∨ v ∈ b.freeVars) ∧
      (∀ v, v ∈ a.freeVars ∨ v ∈ b.freeVars → v ∉ (a.unify b supply).1.typeParams) ∧
      (∀ v ∈ (a.unify b supply).1.freeVars,
        (v ∈ a.typeParams → v ∈ b.freeVars) ∧ (v ∈ b.typeParams → v ∈ a.freeVars)) := by
  have hnew : ∀ v ∈ (a.unify b supply).1.typeParams, v ∉ a.vars ∧ v ∉ b.vars := by
    intro v hv
    rw [typeParams_unify_eq] at hv
    have hold := FreshSupply.notMem_of_mem_drawAll hs hv
    rwa [List.mem_append, not_or] at hold
  refine ⟨?_, hnew, fun v => mem_freeVars_of_unify, fun v hfree hv => ?_, fun v hv => ⟨?_, ?_⟩⟩
  · rw [typeParams_unify_eq]
    exact FreshSupply.nodup_drawAll supply _
  · rcases hfree with hfree | hfree
    · exact (hnew v hv).1 (mem_vars_of_mem_freeVars hfree)
    · exact (hnew v hv).2 (mem_vars_of_mem_freeVars hfree)
  · intro hown
    exact (mem_freeVars_of_unify hv).resolve_left fun hfree => (mem_freeVars_iff.mp hfree).2 hown
  · intro hown
    exact (mem_freeVars_of_unify hv).resolve_right fun hfree => (mem_freeVars_iff.mp hfree).2 hown

/-- An overload that binds a variable twice beside one in which that variable is free: the first gets
two new type parameters, and the variable stays free. -/
theorem unify_hygienic_returns :
    FreshSupply.Above {} ((returns [⟨⟨1⟩, 0⟩, ⟨⟨1⟩, 0⟩]).vars ++ (returns []).vars) ∧
      ((returns [⟨⟨1⟩, 0⟩, ⟨⟨1⟩, 0⟩]).unify (returns []) {}).1.typeParams =
        [⟨⟨1⟩, 1⟩, ⟨⟨1⟩, 2⟩] ∧
      (⟨⟨1⟩, 0⟩ : TypeVar) ∈ (returns []).freeVars ∧
      (⟨⟨1⟩, 0⟩ : TypeVar) ∉
        ((returns [⟨⟨1⟩, 0⟩, ⟨⟨1⟩, 0⟩]).unify (returns []) {}).1.typeParams := by
  have hs : FreshSupply.Above {} ((returns [⟨⟨1⟩, 0⟩, ⟨⟨1⟩, 0⟩]).vars ++ (returns []).vars) := by
    decide +kernel
  have hfree : (⟨⟨1⟩, 0⟩ : TypeVar) ∈ (returns []).freeVars := by decide +kernel
  exact ⟨hs, rfl, hfree, (unify_hygienic hs).2.2.2.1 _ (.inr hfree)⟩

end Signature

end Subtyping
