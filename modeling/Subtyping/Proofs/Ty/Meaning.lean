import Mathlib.Data.Set.Basic
import Subtyping.Proofs.Ty.Gather

/-!
# What unions and intersections mean

Types may be read as sets of values, a union as the union of its members and an intersection as
their intersection, the unknown type as the set of all values. Gathering types keeps the meaning of a
union. An intersection keeps it unless one of its members is the unknown type, which absorbs it as it
does a union: the intersection then has all values (`mem_interOf_iff`).
-/

namespace Subtyping

universe u

/-- A reading of types as sets of values, arbitrary but for unions, intersections and the unknown
type. -/
structure Interpretation (V : Type u) where
  meaning : Ty → Set V
  any : meaning .any = Set.univ
  union : ∀ ts, meaning (.union ts) = {v | ∃ t ∈ ts, v ∈ meaning t}
  inter : ∀ ts, meaning (.inter ts) = {v | ∀ t ∈ ts, v ∈ meaning t}

namespace Interpretation

variable {V : Type u}

/-! ## A reading for every reading of the other types -/

section Extend

variable (leaf : Ty → Set V)

mutual

def extendTy (t : Ty) : Set V :=
  match t with
  | .any => Set.univ
  | .union ts => extendSome ts
  | .inter ts => extendAll ts
  | t => leaf t
termination_by structural t

def extendSome (ts : List Ty) : Set V :=
  match ts with
  | [] => ∅
  | t :: ts => extendTy t ∪ extendSome ts
termination_by structural ts

def extendAll (ts : List Ty) : Set V :=
  match ts with
  | [] => Set.univ
  | t :: ts => extendTy t ∩ extendAll ts
termination_by structural ts

end

theorem extendSome_eq (ts : List Ty) :
    extendSome leaf ts = {v | ∃ t ∈ ts, v ∈ extendTy leaf t} := by
  induction ts with
  | nil => simp [extendSome]
  | cons t ts ih => ext v; simp [extendSome, ih]

theorem extendAll_eq (ts : List Ty) :
    extendAll leaf ts = {v | ∀ t ∈ ts, v ∈ extendTy leaf t} := by
  induction ts with
  | nil => simp [extendAll]
  | cons t ts ih => ext v; simp [extendAll, ih]

/-- The reading that reads all other types as given. -/
def extend : Interpretation V where
  meaning := extendTy leaf
  any := rfl
  union := extendSome_eq leaf
  inter := extendAll_eq leaf

end Extend

/-! ## Gathered types -/

variable (I : Interpretation V) {v : V}

theorem mem_collapse_union_iff (ts : List Ty) :
    v ∈ I.meaning (Ty.collapse .union ts) ↔ ∃ t ∈ ts, v ∈ I.meaning t := by
  apply Ty.collapse_cases (P := fun u => v ∈ I.meaning u ↔ ∃ t ∈ ts, v ∈ I.meaning t)
  · intro hany
    have hall : v ∈ I.meaning .any := by simp [I.any]
    exact iff_of_true hall ⟨.any, hany, hall⟩
  · rintro t rfl
    simp
  · intro _ _
    rw [I.union]
    rfl

theorem mem_collapse_inter_iff (ts : List Ty) :
    v ∈ I.meaning (Ty.collapse .inter ts) ↔ (∀ t ∈ ts, v ∈ I.meaning t) ∨ Ty.any ∈ ts := by
  apply Ty.collapse_cases
    (P := fun u => v ∈ I.meaning u ↔ (∀ t ∈ ts, v ∈ I.meaning t) ∨ Ty.any ∈ ts)
  · intro hany
    exact iff_of_true (by simp [I.any]) (.inr hany)
  · -- the unknown type as the only member has all values in either reading
    rintro t rfl
    rw [List.forall_mem_singleton, List.mem_singleton]
    refine (or_iff_left_of_imp ?_).symm
    rintro rfl
    simp [I.any]
  · intro hany _
    rw [I.inter, or_iff_left hany]
    rfl

theorem exists_mem_alternatives_iff (t : Ty) :
    (∃ u ∈ t.alternatives, v ∈ I.meaning u) ↔ v ∈ I.meaning t := by
  rcases Ty.assembly_union.parts_cases t with ⟨ts, rfl, hparts⟩ | ⟨_, hparts⟩
  · rw [hparts, I.union]
    rfl
  · simp [hparts]

theorem forall_mem_demands_iff (t : Ty) :
    (∀ u ∈ t.demands, v ∈ I.meaning u) ↔ v ∈ I.meaning t := by
  rcases Ty.assembly_inter.parts_cases t with ⟨ts, rfl, hparts⟩ | ⟨_, hparts⟩
  · rw [hparts, I.inter]
    rfl
  · simp [hparts]

/-- A union has the values of its members. -/
theorem mem_unionOf_iff (ts : List Ty) :
    v ∈ I.meaning (Ty.unionOf ts) ↔ ∃ t ∈ ts, v ∈ I.meaning t := by
  rw [Ty.unionOf, mem_collapse_union_iff]
  simp only [Ty.mem_distinct, List.mem_flatMap]
  constructor
  · rintro ⟨u, ⟨t, ht, hu⟩, hv⟩
    exact ⟨t, ht, (I.exists_mem_alternatives_iff t).mp ⟨u, hu, hv⟩⟩
  · rintro ⟨t, ht, hv⟩
    obtain ⟨u, hu, hv⟩ := (I.exists_mem_alternatives_iff t).mpr hv
    exact ⟨u, ⟨t, ht, hu⟩, hv⟩

/-- An intersection has the values that its members have in common, unless the unknown type is one of
them, also when it comes from a nested intersection. It has all values then. -/
theorem mem_interOf_iff (ts : List Ty) :
    v ∈ I.meaning (Ty.interOf ts) ↔
      (∀ t ∈ ts, v ∈ I.meaning t) ∨ Ty.any ∈ ts.flatMap Ty.demands := by
  rw [Ty.interOf, mem_collapse_inter_iff, Ty.mem_distinct]
  apply or_congr_left
  simp only [Ty.mem_distinct, List.mem_flatMap]
  constructor
  · intro h t ht
    rw [← I.forall_mem_demands_iff]
    exact fun u hu => h u ⟨t, ht, hu⟩
  · rintro h u ⟨t, ht, hu⟩
    exact (I.forall_mem_demands_iff t).mpr (h t ht) u hu

end Interpretation

end Subtyping
