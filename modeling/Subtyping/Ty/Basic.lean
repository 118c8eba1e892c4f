import Subtyping.Params.Basic
import Subtyping.TypeVar

/-!
# Types

The types that signatures are written in. A type is plain data: unions and intersections may be
given with any members, and `Subtyping.Ty.Normal` has the constructors that keep them in normal
form. Equality is structural and decidable, and `Ty.induct` is induction over the direct parts.
-/

namespace Subtyping

/-- What a name stands for. -/
inductive NameKind
  /-- The instances of a class or module. -/
  | inst
  /-- The class object itself. -/
  | singleton
  /-- The module object itself. -/
  | module
  | interface
deriving DecidableEq

/-- A type that is known only once a method table is made for a certain name. -/
inductive Placeholder
  /-- The type whose table is made. -/
  | self
  /-- The instances of that type's class or module. -/
  | inst
  /-- The class or module object of that type. -/
  | singleton
deriving DecidableEq

inductive Ty
  /-- The unknown type, related to every type in both directions. -/
  | any
  | void
  | nil
  | bool
  | placeholder (p : Placeholder)
  | var (v : TypeVar)
  | name (head : Atom) (kind : NameKind) (args : List Ty)
  | union (members : List Ty)
  | inter (members : List Ty)
  | proc (params : Params Ty) (result : Ty)
deriving Inhabited

namespace Ty

/-- The types that a type is put together from. -/
def children : Ty → List Ty
  | name _ _ args => args
  | union members => members
  | inter members => members
  | proc params result => params.contents ++ [result]
  | _ => []

def isVar : Ty → Bool
  | var _ => true
  | _ => false

def instancesOf (head : Atom) (args : List Ty) : Ty := name head .inst args

def classObject (head : Atom) : Ty := name head .singleton []

def moduleObject (head : Atom) : Ty := name head .module []

/-! ## Equality -/

mutual

def same (t u : Ty) : Bool :=
  match t, u with
  | any, any => true
  | void, void => true
  | nil, nil => true
  | bool, bool => true
  | placeholder p, placeholder q => p == q
  | var v, var w => v == w
  | name h k ts, name h' k' us => h == h' && k == k' && sameList ts us
  | union ts, union us => sameList ts us
  | inter ts, inter us => sameList ts us
  | proc p t, proc q u => sameParams p q && same t u
  | _, _ => false
termination_by structural t

def sameList (ts us : List Ty) : Bool :=
  match ts, us with
  | [], [] => true
  | t :: ts, u :: us => same t u && sameList ts us
  | _, _ => false
termination_by structural ts

def sameOption (t u : Option Ty) : Bool :=
  match t, u with
  | none, none => true
  | some t, some u => same t u
  | _, _ => false
termination_by structural t

def sameKeywords (ts us : List (Atom × Ty)) : Bool :=
  match ts, us with
  | [], [] => true
  | (k, t) :: ts, (l, u) :: us => k == l && same t u && sameKeywords ts us
  | _, _ => false
termination_by structural ts

def sameParams (p q : Params Ty) : Bool :=
  match p, q with
  | ⟨r, o, s, rk, ok, sk⟩, ⟨r', o', s', rk', ok', sk'⟩ =>
      sameList r r' && sameList o o' && sameOption s s' && sameKeywords rk rk' &&
        sameKeywords ok ok' && sameOption sk sk'
termination_by structural p

end

mutual

theorem same_iff : ∀ t u : Ty, same t u = true ↔ t = u
  | name h k ts, u => by cases u <;> simp [same, sameList_iff ts, and_assoc]
  | union ts, u => by cases u <;> simp [same, sameList_iff ts]
  | inter ts, u => by cases u <;> simp [same, sameList_iff ts]
  | proc p t, u => by cases u <;> simp [same, sameParams_iff p, same_iff t]
  | any, u | void, u | nil, u | bool, u | placeholder _, u | var _, u => by
      cases u <;> simp [same]

theorem sameList_iff : ∀ ts us : List Ty, sameList ts us = true ↔ ts = us
  | [], us => by cases us <;> simp [sameList]
  | t :: ts, us => by cases us <;> simp [sameList, same_iff t, sameList_iff ts]

theorem sameOption_iff : ∀ t u : Option Ty, sameOption t u = true ↔ t = u
  | none, u => by cases u <;> simp [sameOption]
  | some t, u => by cases u <;> simp [sameOption, same_iff t]

theorem sameKeywords_iff : ∀ ts us : List (Atom × Ty), sameKeywords ts us = true ↔ ts = us
  | [], us => by cases us <;> simp [sameKeywords]
  | (k, t) :: ts, us => by
      rcases us with _ | ⟨⟨l, u⟩, us⟩ <;> simp [sameKeywords, same_iff t, sameKeywords_iff ts]

theorem sameParams_iff : ∀ p q : Params Ty, sameParams p q = true ↔ p = q
  | ⟨r, o, s, rk, ok, sk⟩, ⟨r', o', s', rk', ok', sk'⟩ => by
      simp [sameParams, sameList_iff r, sameList_iff o, sameOption_iff s, sameKeywords_iff rk,
        sameKeywords_iff ok, sameOption_iff sk, and_assoc]

end

instance : DecidableEq Ty := fun t u => decidable_of_iff _ (same_iff t u)

/-! ## Induction -/

mutual

/-- Induction over the parts of a type. -/
theorem induct {P : Ty → Prop} (step : ∀ t, (∀ u ∈ t.children, P u) → P t) : ∀ t, P t
  | name h k ts => step _ fun u hu => inductList step ts u hu
  | union ts => step _ fun u hu => inductList step ts u hu
  | inter ts => step _ fun u hu => inductList step ts u hu
  | proc p t => step _ fun u hu => by
      rcases List.mem_append.mp hu with h | h
      · exact inductParams step p u h
      · rw [List.mem_singleton.mp h]
        exact induct step t
  | any => step _ fun u hu => absurd hu List.not_mem_nil
  | void => step _ fun u hu => absurd hu List.not_mem_nil
  | nil => step _ fun u hu => absurd hu List.not_mem_nil
  | bool => step _ fun u hu => absurd hu List.not_mem_nil
  | placeholder _ => step _ fun u hu => absurd hu List.not_mem_nil
  | var _ => step _ fun u hu => absurd hu List.not_mem_nil

private theorem inductList {P : Ty → Prop} (step : ∀ t, (∀ u ∈ t.children, P u) → P t) :
    ∀ ts : List Ty, ∀ u ∈ ts, P u
  | [], _, h => absurd h List.not_mem_nil
  | t :: ts, u, h => by
      rcases List.mem_cons.mp h with h | h
      · rw [h]
        exact induct step t
      · exact inductList step ts u h

private theorem inductOption {P : Ty → Prop} (step : ∀ t, (∀ u ∈ t.children, P u) → P t) :
    ∀ o : Option Ty, ∀ u ∈ o.toList, P u
  | none, _, h => absurd h List.not_mem_nil
  | some t, u, h => by
      rw [List.mem_singleton.mp h]
      exact induct step t

private theorem inductKeywords {P : Ty → Prop} (step : ∀ t, (∀ u ∈ t.children, P u) → P t) :
    ∀ m : List (Atom × Ty), ∀ u ∈ Assoc.values m, P u
  | [], _, h => absurd h List.not_mem_nil
  | (_, t) :: m, u, h => by
      rcases List.mem_cons.mp h with h | h
      · rw [h]
        exact induct step t
      · exact inductKeywords step m u h

private theorem inductParams {P : Ty → Prop} (step : ∀ t, (∀ u ∈ t.children, P u) → P t) :
    ∀ p : Params Ty, ∀ u ∈ p.contents, P u
  | ⟨r, o, s, rk, ok, sk⟩, u, h => by
      simp only [Params.contents, List.mem_append] at h
      rcases h with ((((h | h) | h) | h) | h) | h
      · exact inductList step r u h
      · exact inductList step o u h
      · exact inductOption step s u h
      · exact inductKeywords step rk u h
      · exact inductKeywords step ok u h
      · exact inductOption step sk u h

end

end Ty

end Subtyping
