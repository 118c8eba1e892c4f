import Subtyping.Ty.Basic

/-!
# Unions and intersections in normal form

`Ty.unionOf` and `Ty.interOf` take any list of types, put the members of nested types of the same
kind in their place, and drop repeated members. A single member stands for itself, and the unknown
type absorbs all others. `IsNormal` says what the outcome looks like, at every depth.
-/

namespace Subtyping.Ty

/-- The first occurrence of every type in a list. -/
def distinct : List Ty → List Ty
  | [] => []
  | t :: ts => t :: (distinct ts).filter (· ≠ t)

def alternatives : Ty → List Ty
  | union ts => ts
  | t => [t]

def demands : Ty → List Ty
  | inter ts => ts
  | t => [t]

/-- The type of a list of distinct members, put together by `form` if nothing shorter will do. -/
def collapse (form : List Ty → Ty) (members : List Ty) : Ty :=
  if any ∈ members then any
  else match members with
    | [t] => t
    | ts => form ts

def unionOf (ts : List Ty) : Ty := collapse union (distinct (ts.flatMap alternatives))

def interOf (ts : List Ty) : Ty := collapse inter (distinct (ts.flatMap demands))

def or (t u : Ty) : Ty := unionOf [t, u]

def and (t u : Ty) : Ty := interOf [t, u]

/-- The members of a union or intersection that nothing shorter could replace. -/
structure IsNormalMembers (flat : Ty → Prop) (ts : List Ty) : Prop where
  nodup : ts.Nodup
  any_notMem : any ∉ ts
  length_ne_one : ts.length ≠ 1
  all_flat : ∀ t ∈ ts, flat t

/-- A type whose unions and intersections, at every depth, have distinct members, none of the
same kind, none unknown, and not exactly one. -/
inductive IsNormal : Ty → Prop
  | intro (t : Ty)
      (ofUnion : ∀ ts, t = union ts → IsNormalMembers (fun u => ∀ us, u ≠ union us) ts)
      (ofInter : ∀ ts, t = inter ts → IsNormalMembers (fun u => ∀ us, u ≠ inter us) ts)
      (ofParts : ∀ u ∈ t.children, IsNormal u) : IsNormal t

theorem mem_distinct (ts : List Ty) (t : Ty) : t ∈ distinct ts ↔ t ∈ ts := by
  induction ts with
  | nil => rfl
  | cons u ts ih =>
      by_cases h : t = u <;> simp [distinct, ih, h]

theorem nodup_distinct (ts : List Ty) : (distinct ts).Nodup := by
  induction ts with
  | nil => exact List.nodup_nil
  | cons u ts ih =>
      refine List.nodup_cons.mpr ⟨by simp, ?_⟩
      exact ih.filter _

theorem distinct_eq_self {ts : List Ty} (h : ts.Nodup) : distinct ts = ts := by
  induction ts with
  | nil => rfl
  | cons t ts ih =>
      rcases List.nodup_cons.mp h with ⟨ht, hts⟩
      have : ts.filter (· ≠ t) = ts :=
        List.filter_eq_self.mpr fun u hu => by
          simpa using fun he : u = t => ht (he ▸ hu)
      rw [distinct, ih hts, this]

end Subtyping.Ty
