import Subtyping.Ty.Normal

/-!
# Rewriting inside types

`mapParts` changes the direct parts of a type and builds the type anew, so that parts which have
become equal are merged. `rewrite` replaces, from the outside in, every type that a function
answers; `rewrite_eq` is its law.
-/

namespace Subtyping.Ty

def mapParts (f : Ty → Ty) : Ty → Ty
  | name head kind args => name head kind (args.map f)
  | union members => unionOf (members.map f)
  | inter members => interOf (members.map f)
  | proc params result => proc (params.map f) (f result)
  | t => t

mutual

/-- A type in which every outermost part that `f` answers is replaced by the answer. -/
def rewrite (f : Ty → Option Ty) (t : Ty) : Ty :=
  match f t with
  | some u => u
  | none =>
      match t with
      | name head kind args => name head kind (rewriteList f args)
      | union members => unionOf (rewriteList f members)
      | inter members => interOf (rewriteList f members)
      | proc params result => proc (rewriteParams f params) (rewrite f result)
      | t => t
termination_by structural t

def rewriteList (f : Ty → Option Ty) (ts : List Ty) : List Ty :=
  match ts with
  | [] => []
  | t :: ts => rewrite f t :: rewriteList f ts
termination_by structural ts

def rewriteOption (f : Ty → Option Ty) (t : Option Ty) : Option Ty :=
  match t with
  | none => none
  | some t => some (rewrite f t)
termination_by structural t

def rewriteKeywords (f : Ty → Option Ty) (m : List (Atom × Ty)) : List (Atom × Ty) :=
  match m with
  | [] => []
  | (k, t) :: m => (k, rewrite f t) :: rewriteKeywords f m
termination_by structural m

def rewriteParams (f : Ty → Option Ty) (p : Params Ty) : Params Ty :=
  match p with
  | ⟨r, o, s, rk, ok, sk⟩ =>
      ⟨rewriteList f r, rewriteList f o, rewriteOption f s, rewriteKeywords f rk,
        rewriteKeywords f ok, rewriteOption f sk⟩
termination_by structural p

end

/-- The function to rewrite by when one type takes the place of another. -/
def replacing (old new : Ty) (t : Ty) : Option Ty := if t = old then some new else none

theorem rewriteList_eq_map (f : Ty → Option Ty) (ts : List Ty) :
    rewriteList f ts = ts.map (rewrite f) := by
  induction ts with
  | nil => rfl
  | cons t ts ih => simp [rewriteList, ih]

theorem rewriteOption_eq_map (f : Ty → Option Ty) (t : Option Ty) :
    rewriteOption f t = t.map (rewrite f) := by
  cases t <;> rfl

theorem rewriteKeywords_eq_mapValues (f : Ty → Option Ty) (m : List (Atom × Ty)) :
    rewriteKeywords f m = Assoc.mapValues (rewrite f) m := by
  induction m with
  | nil => rfl
  | cons e m ih => simp [rewriteKeywords, Assoc.mapValues, ih]

theorem rewriteParams_eq_map (f : Ty → Option Ty) (p : Params Ty) :
    rewriteParams f p = p.map (rewrite f) := by
  cases p
  simp [rewriteParams, Params.map, rewriteList_eq_map, rewriteOption_eq_map,
    rewriteKeywords_eq_mapValues]

/-- A type that `f` answers is replaced, and in any other the parts are rewritten. -/
theorem rewrite_eq (f : Ty → Option Ty) (t : Ty) :
    rewrite f t = (f t).getD (t.mapParts (rewrite f)) := by
  cases h : f t with
  | some u => cases t <;> simp [rewrite, h]
  | none =>
      cases t <;> simp [rewrite, h, mapParts, rewriteList_eq_map, rewriteParams_eq_map]

theorem mapParts_congr {f g : Ty → Ty} {t : Ty} (h : ∀ u ∈ t.children, f u = g u) :
    t.mapParts f = t.mapParts g := by
  cases t with
  | name head kind args => exact congrArg (name head kind) (List.map_congr_left h)
  | union members => exact congrArg unionOf (List.map_congr_left h)
  | inter members => exact congrArg interOf (List.map_congr_left h)
  | proc params result =>
      have hp : ∀ u ∈ params.contents, f u = g u :=
        fun u hu => h u (List.mem_append_left _ hu)
      have hr : f result = g result := h result (List.mem_append_right _ List.mem_cons_self)
      have : params.map f = params.map g := Params.map_congr hp
      simp [mapParts, this, hr]
  | _ => rfl

end Subtyping.Ty
