import Mathlib.Logic.Function.Basic
import Subtyping.Substitution

/-!
# Relabelling the variables of a type

`Ty.relabel` puts other variables in the places of the variables of a type and leaves everything
else as it stands; unlike a substitution it builds no union anew. When no two variables get the
same label, nothing that types are built or rewritten by can tell the difference: `relabel_unionOf`,
`relabel_interOf` and `relabel_subst`.
-/

namespace Subtyping.Ty

mutual

/-- A type with other variables in the places of its variables. -/
def relabel (ρ : TypeVar → TypeVar) (t : Ty) : Ty :=
  match t with
  | var v => var (ρ v)
  | name head kind args => name head kind (relabelList ρ args)
  | union members => union (relabelList ρ members)
  | inter members => inter (relabelList ρ members)
  | proc params result => proc (relabelParams ρ params) (relabel ρ result)
  | t => t
termination_by structural t

def relabelList (ρ : TypeVar → TypeVar) (ts : List Ty) : List Ty :=
  match ts with
  | [] => []
  | t :: ts => relabel ρ t :: relabelList ρ ts
termination_by structural ts

def relabelOption (ρ : TypeVar → TypeVar) (t : Option Ty) : Option Ty :=
  match t with
  | none => none
  | some t => some (relabel ρ t)
termination_by structural t

def relabelKeywords (ρ : TypeVar → TypeVar) (m : List (Atom × Ty)) : List (Atom × Ty) :=
  match m with
  | [] => []
  | (k, t) :: m => (k, relabel ρ t) :: relabelKeywords ρ m
termination_by structural m

def relabelParams (ρ : TypeVar → TypeVar) (p : Params Ty) : Params Ty :=
  match p with
  | ⟨r, o, s, rk, ok, sk⟩ =>
      ⟨relabelList ρ r, relabelList ρ o, relabelOption ρ s, relabelKeywords ρ rk,
        relabelKeywords ρ ok, relabelOption ρ sk⟩
termination_by structural p

end

variable {ρ : TypeVar → TypeVar}

private theorem relabelList_eq_map (ts : List Ty) : relabelList ρ ts = ts.map (relabel ρ) := by
  induction ts with
  | nil => rfl
  | cons t ts ih => rw [relabelList, ih, List.map_cons]

private theorem relabelOption_eq_map (t : Option Ty) : relabelOption ρ t = t.map (relabel ρ) := by
  cases t <;> rfl

private theorem relabelKeywords_eq_mapValues (m : List (Atom × Ty)) :
    relabelKeywords ρ m = Assoc.mapValues (relabel ρ) m := by
  induction m with
  | nil => rfl
  | cons e m ih =>
      rw [relabelKeywords, ih]
      rfl

private theorem relabelParams_eq_map (p : Params Ty) : relabelParams ρ p = p.map (relabel ρ) := by
  cases p
  simp only [relabelParams, Params.map, relabelList_eq_map, relabelOption_eq_map,
    relabelKeywords_eq_mapValues]

section Shapes

@[simp] theorem relabel_any : relabel ρ any = any := rfl

@[simp] theorem relabel_void : relabel ρ void = void := rfl

@[simp] theorem relabel_nil : relabel ρ nil = nil := rfl

@[simp] theorem relabel_bool : relabel ρ bool = bool := rfl

@[simp] theorem relabel_var (v : TypeVar) : relabel ρ (var v) = var (ρ v) := rfl

@[simp] theorem relabel_placeholder (p : Placeholder) :
    relabel ρ (placeholder p) = placeholder p := rfl

@[simp] theorem relabel_name (head : Atom) (kind : NameKind) (args : List Ty) :
    relabel ρ (name head kind args) = name head kind (args.map (relabel ρ)) := by
  rw [relabel, relabelList_eq_map]

@[simp] theorem relabel_union (members : List Ty) :
    relabel ρ (union members) = union (members.map (relabel ρ)) := by
  rw [relabel, relabelList_eq_map]

@[simp] theorem relabel_inter (members : List Ty) :
    relabel ρ (inter members) = inter (members.map (relabel ρ)) := by
  rw [relabel, relabelList_eq_map]

@[simp] theorem relabel_proc (params : Params Ty) (result : Ty) :
    relabel ρ (proc params result) = proc (params.map (relabel ρ)) (relabel ρ result) := by
  rw [relabel, relabelParams_eq_map]

end Shapes

theorem children_relabel (t : Ty) : (t.relabel ρ).children = t.children.map (relabel ρ) := by
  cases t <;> simp [children, Params.contents_map]

theorem isVar_relabel (t : Ty) : (t.relabel ρ).isVar = t.isVar := by
  cases t <;> simp [isVar]

theorem vars_relabel (t : Ty) : (t.relabel ρ).vars = t.vars.map ρ := by
  induction t using induct with
  | step t ih =>
      cases ht : t.isVar with
      | true =>
          cases t <;> simp_all [isVar, vars]
      | false =>
          rw [vars_of_isVar_eq_false ht, vars_of_isVar_eq_false ((isVar_relabel t).trans ht),
            children_relabel, List.flatMap_map, List.map_flatMap]
          simp only [List.flatMap_def]
          rw [List.map_congr_left ih]

theorem relabel_eq_self {t : Ty} (h : ∀ v ∈ t.vars, ρ v = v) : t.relabel ρ = t := by
  induction t using induct with
  | step t ih =>
      have hparts : ∀ u ∈ t.children, u.relabel ρ = id u :=
        fun u hu => ih u hu fun v hv => h v (mem_vars_of_mem_children hu hv)
      cases t with
      | var v => rw [relabel_var, h v (by simp [vars])]
      | name head kind args =>
          have := List.map_congr_left (l := args) hparts
          rw [relabel_name, this, List.map_id]
      | union members =>
          have := List.map_congr_left (l := members) hparts
          rw [relabel_union, this, List.map_id]
      | inter members =>
          have := List.map_congr_left (l := members) hparts
          rw [relabel_inter, this, List.map_id]
      | proc params result =>
          have hp : params.map (relabel ρ) = params.map id :=
            Params.map_congr fun u hu => hparts u (List.mem_append_left _ hu)
          rw [relabel_proc, hp, hparts result (List.mem_append_right _ List.mem_cons_self),
            Params.map_id]
          rfl
      | _ => rfl

theorem relabel_relabel (ρ' : TypeVar → TypeVar) (t : Ty) :
    (t.relabel ρ).relabel ρ' = t.relabel (ρ' ∘ ρ) := by
  induction t using induct with
  | step t ih =>
      cases t with
      | proc params result =>
          have hp := Params.map_congr (p := params) fun u hu => ih u (List.mem_append_left _ hu)
          rw [relabel_proc, relabel_proc, relabel_proc, ← hp, Params.map_map,
            ih result (List.mem_append_right _ List.mem_cons_self)]
      | void | nil | bool => rfl
      | _ => simp_all [children]

theorem relabel_injective (hρ : Function.Injective ρ) : Function.Injective (relabel ρ) := by
  obtain ⟨ρ', h⟩ := hρ.hasLeftInverse
  refine Function.LeftInverse.injective (g := relabel ρ') fun t => ?_
  rw [relabel_relabel]
  exact relabel_eq_self fun v _ => h v

section NormalForm

theorem distinct_map (hρ : Function.Injective ρ) (ts : List Ty) :
    distinct (ts.map (relabel ρ)) = (distinct ts).map (relabel ρ) := by
  induction ts with
  | nil => rfl
  | cons t ts ih =>
      have hne : ∀ u : Ty, (u.relabel ρ ≠ t.relabel ρ) = (u ≠ t) :=
        fun u => congrArg Not (propext (relabel_injective hρ).eq_iff)
      simp only [List.map_cons, distinct, ih, List.filter_map, Function.comp_def, hne]

theorem alternatives_relabel (t : Ty) :
    (t.relabel ρ).alternatives = t.alternatives.map (relabel ρ) := by
  cases t <;> simp [alternatives]

theorem demands_relabel (t : Ty) : (t.relabel ρ).demands = t.demands.map (relabel ρ) := by
  cases t <;> simp [demands]

private theorem any_mem_map {ts : List Ty} : any ∈ ts.map (relabel ρ) ↔ any ∈ ts := by
  constructor
  · intro h
    obtain ⟨t, ht, he⟩ := List.mem_map.mp h
    cases t with
    | any => exact ht
    | _ => simp [relabel] at he
  · exact fun h => List.mem_map.mpr ⟨any, h, rfl⟩

theorem collapse_map {form form' : List Ty → Ty} (ts : List Ty)
    (h : ∀ us, form' (us.map (relabel ρ)) = (form us).relabel ρ) :
    collapse form' (ts.map (relabel ρ)) = (collapse form ts).relabel ρ := by
  unfold collapse
  by_cases ha : any ∈ ts
  · rw [if_pos ha, if_pos (any_mem_map.mpr ha), relabel_any]
  · rw [if_neg ha, if_neg (mt any_mem_map.mp ha)]
    match ts with
    | [] => exact h []
    | [t] => rfl
    | t :: u :: ts => exact h (t :: u :: ts)

theorem relabel_unionOf (hρ : Function.Injective ρ) (ts : List Ty) :
    (unionOf ts).relabel ρ = unionOf (ts.map (relabel ρ)) := by
  have hflat : (ts.map (relabel ρ)).flatMap alternatives =
      (ts.flatMap alternatives).map (relabel ρ) := by
    rw [List.flatMap_map, List.map_flatMap]
    simp only [alternatives_relabel]
  rw [unionOf, unionOf, hflat, distinct_map hρ, collapse_map]
  exact fun us => (relabel_union us).symm

theorem relabel_interOf (hρ : Function.Injective ρ) (ts : List Ty) :
    (interOf ts).relabel ρ = interOf (ts.map (relabel ρ)) := by
  have hflat : (ts.map (relabel ρ)).flatMap demands =
      (ts.flatMap demands).map (relabel ρ) := by
    rw [List.flatMap_map, List.map_flatMap]
    simp only [demands_relabel]
  rw [interOf, interOf, hflat, distinct_map hρ, collapse_map]
  exact fun us => (relabel_inter us).symm

end NormalForm

theorem mapParts_of_relabel (g : Ty → Ty) {t : Ty} (ht : t.isVar = false) :
    (t.relabel ρ).mapParts g = t.mapParts fun u => g (u.relabel ρ) := by
  cases t with
  | var v => cases ht
  | name head kind args =>
      rw [relabel_name, mapParts, List.map_map]
      rfl
  | union members =>
      rw [relabel_union, mapParts, List.map_map]
      rfl
  | inter members =>
      rw [relabel_inter, mapParts, List.map_map]
      rfl
  | proc params result =>
      rw [relabel_proc, mapParts, Params.map_map]
      rfl
  | _ => rfl

theorem mapParts_relabel (hρ : Function.Injective ρ) {f g : Ty → Ty} {t : Ty}
    (h : ∀ u ∈ t.children, g (u.relabel ρ) = (f u).relabel ρ) :
    (t.relabel ρ).mapParts g = (t.mapParts f).relabel ρ := by
  have hparts : t.isVar = false →
      (t.relabel ρ).mapParts g = t.mapParts fun u => (f u).relabel ρ :=
    fun ht => (mapParts_of_relabel g ht).trans (mapParts_congr h)
  cases t with
  | name head kind args =>
      rw [hparts rfl, mapParts, mapParts, relabel_name, List.map_map]
      rfl
  | union members =>
      rw [hparts rfl, mapParts, mapParts, relabel_unionOf hρ, List.map_map]
      rfl
  | inter members =>
      rw [hparts rfl, mapParts, mapParts, relabel_interOf hρ, List.map_map]
      rfl
  | proc params result =>
      rw [hparts rfl, mapParts, mapParts, relabel_proc, Params.map_map]
  | _ => rfl

end Subtyping.Ty

namespace Subtyping.Substitution

/-- The second substitution does to relabelled types what the first does to the types themselves. -/
structure Relabels (ρ : TypeVar → TypeVar) (s s' : Substitution) : Prop where
  get? : ∀ v, s'.get? (ρ v) = (s.get? v).map (Ty.relabel ρ)
  isLabel : ∀ w, s'.get? w ≠ none → ∃ v, ρ v = w
  placeholder? : ∀ p, s'.placeholder? p = (s.placeholder? p).map (Ty.relabel ρ)

theorem Relabels.image? {ρ : TypeVar → TypeVar} {s s' : Substitution} (h : Relabels ρ s s')
    (t : Ty) : s'.image? (t.relabel ρ) = (s.image? t).map (Ty.relabel ρ) := by
  cases t with
  | var v => exact h.get? v
  | placeholder p => exact h.placeholder? p
  | _ => simp [Substitution.image?, Ty.relabel]

theorem Relabels.subst {ρ : TypeVar → TypeVar} (hρ : Function.Injective ρ) {s s' : Substitution}
    (h : Relabels ρ s s') (t : Ty) : (t.relabel ρ).subst s' = (t.subst s).relabel ρ := by
  induction t using Ty.induct with
  | step t ih =>
      rw [Ty.subst_eq, Ty.subst_eq s t, h.image?, Ty.mapParts_relabel hρ ih]
      cases s.image? t <;> rfl

end Subtyping.Substitution
