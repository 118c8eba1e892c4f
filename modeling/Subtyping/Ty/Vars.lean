import Subtyping.Ty.Basic

/-!
# The variables of a type

`Ty.vars` lists the type variables that occur in a type, from left to right and as often as they
occur; `vars_eq` says it in terms of the direct parts.
-/

namespace Subtyping.Ty

mutual

def vars (t : Ty) : List TypeVar :=
  match t with
  | var v => [v]
  | name _ _ args => varsList args
  | union members => varsList members
  | inter members => varsList members
  | proc params result => varsParams params ++ vars result
  | _ => []
termination_by structural t

def varsList (ts : List Ty) : List TypeVar :=
  match ts with
  | [] => []
  | t :: ts => vars t ++ varsList ts
termination_by structural ts

def varsOption (t : Option Ty) : List TypeVar :=
  match t with
  | none => []
  | some t => vars t
termination_by structural t

def varsKeywords (m : List (Atom × Ty)) : List TypeVar :=
  match m with
  | [] => []
  | (_, t) :: m => vars t ++ varsKeywords m
termination_by structural m

def varsParams (p : Params Ty) : List TypeVar :=
  match p with
  | ⟨r, o, s, rk, ok, sk⟩ =>
      varsList r ++ varsList o ++ varsOption s ++ varsKeywords rk ++ varsKeywords ok ++
        varsOption sk
termination_by structural p

end

theorem varsList_eq_flatMap (ts : List Ty) : varsList ts = ts.flatMap vars := by
  induction ts with
  | nil => rfl
  | cons t ts ih => simp [varsList, ih]

theorem varsOption_eq_flatMap (t : Option Ty) : varsOption t = t.toList.flatMap vars := by
  cases t <;> simp [varsOption]

theorem varsKeywords_eq_flatMap (m : List (Atom × Ty)) :
    varsKeywords m = (Assoc.values m).flatMap vars := by
  induction m with
  | nil => rfl
  | cons e m ih => simp [varsKeywords, Assoc.values, ih]

theorem varsParams_eq_flatMap (p : Params Ty) : varsParams p = p.contents.flatMap vars := by
  cases p
  simp [varsParams, Params.contents, varsList_eq_flatMap, varsOption_eq_flatMap,
    varsKeywords_eq_flatMap]

theorem vars_eq (t : Ty) :
    t.vars = match t with
      | var v => [v]
      | t => t.children.flatMap vars := by
  cases t <;> simp [vars, children, varsList_eq_flatMap, varsParams_eq_flatMap]

theorem vars_of_isVar_eq_false {t : Ty} (h : t.isVar = false) :
    t.vars = t.children.flatMap vars := by
  rw [vars_eq]
  cases t with
  | var v => exact absurd h (by simp [isVar])
  | _ => rfl

theorem mem_vars_of_mem_children {t u : Ty} (hu : u ∈ t.children) {v : TypeVar}
    (hv : v ∈ u.vars) : v ∈ t.vars := by
  have ht : t.isVar = false := by
    cases t with
    | var w => exact absurd hu List.not_mem_nil
    | _ => rfl
  rw [vars_of_isVar_eq_false ht]
  exact List.mem_flatMap.mpr ⟨u, hu, hv⟩

end Subtyping.Ty
