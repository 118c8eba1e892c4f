import Mathlib.Data.List.Perm.Basic
import Subtyping.Ty.Normal

/-!
# The order of members

The members of a union or intersection stand in the order in which they were given. Types that were
put together from the same types in another order differ in nothing else.
-/

namespace Subtyping.Ty

/-- Types that differ at most in the order of their outermost members. -/
inductive Reordered : Ty → Ty → Prop
  | refl (t : Ty) : Reordered t t
  | union {ts us : List Ty} (h : ts.Perm us) : Reordered (union ts) (union us)
  | inter {ts us : List Ty} (h : ts.Perm us) : Reordered (inter ts) (inter us)

theorem distinct_perm {ts us : List Ty} (h : ∀ t, t ∈ ts ↔ t ∈ us) :
    (distinct ts).Perm (distinct us) := by
  rw [List.perm_ext_iff_of_nodup (nodup_distinct ts) (nodup_distinct us)]
  intro t
  rw [mem_distinct, mem_distinct, h]

theorem collapse_reordered {form : List Ty → Ty} {ts us : List Ty}
    (hform : Reordered (form ts) (form us)) (h : ts.Perm us) :
    Reordered (collapse form ts) (collapse form us) := by
  unfold collapse
  by_cases hany : any ∈ ts
  · rw [if_pos hany, if_pos (h.mem_iff.mp hany)]
    exact .refl any
  · rw [if_neg hany, if_neg (mt h.mem_iff.mpr hany)]
    split
    next t =>
      rw [← List.singleton_perm.mp h]
      exact .refl t
    next hts =>
      split
      next u => exact absurd (List.perm_singleton.mp h) (hts u)
      next => exact hform

theorem or_reordered (t u : Ty) : (t.or u).Reordered (u.or t) := by
  have hmem : ∀ x, x ∈ [t, u].flatMap alternatives ↔ x ∈ [u, t].flatMap alternatives := by
    intro x
    simp [or_comm]
  exact collapse_reordered (.union (distinct_perm hmem)) (distinct_perm hmem)

theorem and_reordered (t u : Ty) : (t.and u).Reordered (u.and t) := by
  have hmem : ∀ x, x ∈ [t, u].flatMap demands ↔ x ∈ [u, t].flatMap demands := by
    intro x
    simp [or_comm]
  exact collapse_reordered (.inter (distinct_perm hmem)) (distinct_perm hmem)

end Subtyping.Ty
