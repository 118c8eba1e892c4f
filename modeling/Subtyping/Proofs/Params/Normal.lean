import Subtyping.Proofs.Params.Mapped
import Subtyping.Proofs.Ty.Compose

/-!
# Merges of lists of normal types

What a merge puts into a slot comes of types that the two lists have. So merges of normal lists are
normal (`isNormal_union`, `isNormal_inter?`), and a substitution with normal images can be applied
before or after lists are merged (`subst_union_inter?`).
-/

namespace Subtyping

theorem Ty.carriesOver_isNormal : CarriesOver IsNormal where
  or := isNormal_or
  and := isNormal_and

namespace Params

variable {p q r : Params Ty}

/-- Whether all slots have normal types. -/
def IsNormal : Params Ty → Prop := All Ty.IsNormal

theorem isNormal_union (hp : p.IsNormal) (hq : q.IsNormal) : (p.union q).IsNormal :=
  all_union Ty.carriesOver_isNormal hp hq

theorem isNormal_inter? (hp : p.IsNormal) (hq : q.IsNormal) (hr : p.inter? q = some r) :
    r.IsNormal := all_inter? Ty.carriesOver_isNormal hp hq hr

/-! ## Substitutions -/

variable {s : Substitution}

theorem isNormal_subst (hs : s.IsNormal) (p : Params Ty) : (p.subst s).IsNormal := by
  apply all_map
  intro t _
  exact hs.subst t

/-- Lists can be merged before or after a substitution with normal images is applied to them, and
either both ways come to nothing or both come to the same list. The lists need not be normal. -/
theorem subst_union_inter? (hs : s.IsNormal) (p q : Params Ty) :
    (p.union q).subst s = (p.subst s).union (q.subst s) ∧
      (p.inter? q).map (subst s) = (p.subst s).inter? (q.subst s) := by
  constructor
  · exact map_unionWith ⟨fun t _ u _ => Ty.subst_or hs t u, fun t _ u _ => Ty.subst_or hs t u⟩
  · exact map_interWith? ⟨fun t _ u _ => Ty.subst_and hs t u, fun t _ u _ => Ty.subst_and hs t u⟩

/-- The types that meet become equal, and the types for all other arguments meet fixed slots. -/
theorem subst_union_inter?_merged :
    let s : Substitution := .pairing [⟨⟨1⟩, 0⟩] [.nil]
    let p : Params Ty := { required := [.var ⟨⟨1⟩, 0⟩], restKeywords := some .bool }
    let q : Params Ty :=
      { required := [.nil], optional := [.var ⟨⟨1⟩, 0⟩], requiredKeywords := [(⟨2⟩, .nil)] }
    s.IsNormal ∧ (p.union q).subst s = (p.subst s).union (q.subst s) ∧
      (p.inter? q).map (subst s) = (p.subst s).inter? (q.subst s) := by
  intro s p q
  have hnil : ∀ t ∈ [Ty.nil], t.IsNormal := List.forall_mem_singleton.mpr Ty.isNormal_nil
  have hs : s.IsNormal := Substitution.isNormal_pairing hnil
  exact ⟨hs, subst_union_inter? hs p q⟩

end Params

end Subtyping
