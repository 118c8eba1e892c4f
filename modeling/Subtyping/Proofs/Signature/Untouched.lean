import Subtyping.Proofs.Ty.Compose

/-!
# Signatures that a substitution passes by

A signature stays as it stands under a substitution that has types for none of its free variables nor
for a placeholder. Applying such a substitution would put its types together anew, so nothing is lost
when they are in normal form (`subst_eq_applied`).
-/

namespace Subtyping

theorem Substitution.except_nil (s : Substitution) : s.except [] = s := by
  have hvars : s.vars.filter (fun e => e.1 ∉ []) = s.vars := List.filter_eq_self.mpr (by simp)
  rw [except, hvars]

namespace Signature

variable {m : Signature} {s : Substitution}

theorem mem_freeVars {t : Ty} (ht : t ∈ m.types) {v : TypeVar} (hv : v ∈ t.vars)
    (hown : v ∉ m.typeParams) : v ∈ m.freeVars := by
  rw [freeVars, List.mem_filter]
  exact ⟨List.mem_flatMap.mpr ⟨t, ht, hv⟩, by simpa using hown⟩

theorem untouched (h : (s.isEmpty || s.isDisjoint m.freeVars) = true) :
    (∀ p, s.placeholder? p = none) ∧ ∀ v ∈ m.freeVars, s.get? v = none := by
  rw [Bool.or_eq_true, s.isEmpty_iff, s.isDisjoint_iff] at h
  rcases h with ⟨hp, hv⟩ | h
  · exact ⟨hp, fun v _ => hv v⟩
  · exact h

theorem subst_of_placeholder? {p : Placeholder} (h : s.placeholder? p ≠ none) (m : Signature) :
    m.subst s = { m.instantiate (s.except m.typeParams) with typeParams := m.typeParams } := by
  unfold subst
  split
  next huntouched => exact absurd ((untouched huntouched).1 p) h
  next => rfl

/-- A normal signature is what comes of a substitution, whether this passes it by or not. -/
theorem subst_of_isNormal (hnormal : ∀ t ∈ m.types, t.IsNormal) (s : Substitution) :
    m.subst s = { m.instantiate (s.except m.typeParams) with typeParams := m.typeParams } := by
  unfold subst
  split
  next h =>
    obtain ⟨hp, hv⟩ := untouched h
    have hmap : m.mapTypes (Ty.subst (s.except m.typeParams)) = m.mapTypes id := by
      apply mapTypes_congr
      intro t ht
      apply Ty.subst_eq_self (hnormal t ht)
      · intro v hvt
        rw [Substitution.get?_except]
        by_cases hown : v ∈ m.typeParams
        · rw [if_pos hown]
        · rw [if_neg hown, hv v (mem_freeVars ht hvt hown)]
      · intro p
        rw [Substitution.placeholder?_except, hp p]
    rw [instantiate, hmap, mapTypes_id]
  next => rfl

theorem subst_eq_instantiate (hown : m.typeParams = []) (hnormal : ∀ t ∈ m.types, t.IsNormal)
    (s : Substitution) : m.subst s = m.instantiate s := by
  rw [subst_of_isNormal hnormal, hown, Substitution.except_nil]
  rfl

/-- Under a substitution a normal signature keeps its type parameters and its declarations, and all
else is what the substitution without the type parameters makes of it. Nothing matters to a type but
what becomes of its variables and of the placeholders. -/
theorem subst_eq_applied :
    (∀ m : Signature, (∀ t ∈ m.types, t.IsNormal) → ∀ s, m.subst s =
      { typeParams := m.typeParams
        params := m.params.subst (s.except m.typeParams)
        block := m.block.map (Block.subst (s.except m.typeParams))
        result := m.result.subst (s.except m.typeParams)
        declarations := m.declarations }) ∧
    ∀ (t : Ty) (s r : Substitution), (∀ v ∈ t.vars, (Ty.var v).subst s = (Ty.var v).subst r) →
      (∀ p, (Ty.placeholder p).subst s = (Ty.placeholder p).subst r) → t.subst s = t.subst r := by
  constructor
  · intro m hnormal s
    exact subst_of_isNormal hnormal s
  · intro t s r hvars hplaceholders
    exact Ty.subst_agree hvars hplaceholders

/-- The own type parameter is all that the substitution has a type for, and a variable is also given
itself. -/
theorem subst_eq_applied_bound :
    let t : Ty := .union [.var ⟨⟨1⟩, 0⟩, .var ⟨⟨2⟩, 0⟩]
    let m : Signature :=
      { typeParams := [⟨⟨1⟩, 0⟩], params := { rest := some t }, result := t,
        declarations := [⟨⟨3⟩, ⟨4⟩⟩] }
    let s : Substitution := .pairing [⟨⟨1⟩, 0⟩] [.nil]
    let r : Substitution := .pairing [⟨⟨1⟩, 0⟩, ⟨⟨2⟩, 0⟩] [.nil, .var ⟨⟨2⟩, 0⟩]
    s.isDisjoint m.freeVars = true ∧ (∀ u ∈ m.types, u.IsNormal) ∧
      m.subst s =
        { m with
          params := m.params.subst (s.except m.typeParams)
          result := m.result.subst (s.except m.typeParams) } ∧
      s ≠ r ∧ t.subst s = t.subst r := by
  intro t m s r
  have ht : t.IsNormal := Ty.isNormal_union
    ⟨by decide, by decide, by decide, by simp⟩ (by simp [Ty.isNormal_var])
  have hm : ∀ u ∈ m.types, u.IsNormal := by
    intro u hu
    have htypes : m.types = [t, t] := rfl
    rw [htypes, List.mem_cons, List.mem_singleton, or_self] at hu
    rw [hu]
    exact ht
  refine ⟨by decide, hm, subst_eq_applied.1 m hm s, by decide,
    subst_eq_applied.2 t s r (by decide) fun p => ?_⟩
  cases p <;> rfl

end Signature

end Subtyping
