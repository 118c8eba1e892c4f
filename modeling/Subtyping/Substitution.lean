import Subtyping.Ty.Rewrite
import Subtyping.Ty.Vars

/-!
# Substitutions

A substitution gives types for variables and, when a method table is made for a certain name, for
the placeholders. Substituting is rewriting by `image?`, so unions and intersections are built
anew and members that have become equal are merged.
-/

namespace Subtyping

/-- Types for variables, in ascending order and each once, and for placeholders. -/
structure Substitution where
  vars : List (TypeVar × Ty) := []
  self : Option Ty := none
  inst : Option Ty := none
  singleton : Option Ty := none
deriving DecidableEq

namespace Substitution

/-- Variables with types, position by position. A variable that comes twice gets its last type. -/
def pairing (vs : List TypeVar) (ts : List Ty) : Substitution := { vars := Assoc.ofList (vs.zip ts) }

def rename (vs ws : List TypeVar) : Substitution := pairing vs (ws.map .var)

def get? (s : Substitution) (v : TypeVar) : Option Ty := Assoc.get? v s.vars

def placeholder? (s : Substitution) : Placeholder → Option Ty
  | .self => s.self
  | .inst => s.inst
  | .singleton => s.singleton

/-- The type that takes the place of a variable or placeholder. -/
def image? (s : Substitution) : Ty → Option Ty
  | .var v => s.get? v
  | .placeholder p => s.placeholder? p
  | _ => none

def insert (s : Substitution) (v : TypeVar) (t : Ty) : Substitution :=
  { s with vars := Assoc.insert v t s.vars }

def except (s : Substitution) (vs : List TypeVar) : Substitution :=
  { s with vars := s.vars.filter fun e => e.1 ∉ vs }

def hasPlaceholders (s : Substitution) : Bool :=
  s.self.isSome || s.inst.isSome || s.singleton.isSome

/-- Whether a substitution has a type for nothing at all. -/
def isEmpty (s : Substitution) : Bool := s.vars.isEmpty && !s.hasPlaceholders

/-- Whether a substitution has a type for none of the given variables, nor for any
placeholder. -/
def isDisjoint (s : Substitution) (vs : List TypeVar) : Bool :=
  !s.hasPlaceholders && s.vars.all fun e => e.1 ∉ vs

theorem get?_insert (s : Substitution) (v w : TypeVar) (t : Ty) :
    (s.insert v t).get? w = if w = v then some t else s.get? w :=
  Assoc.get?_insert s.vars v w t

theorem get?_except (s : Substitution) (vs : List TypeVar) (v : TypeVar) :
    (s.except vs).get? v = if v ∈ vs then none else s.get? v := by
  unfold get? except
  induction s.vars with
  | nil => simp
  | cons e m ih =>
      rcases e with ⟨w, t⟩
      by_cases hw : w ∈ vs <;> by_cases hv : v = w <;> simp_all [Assoc.get?]

theorem get?_pairing (vs : List TypeVar) (ts : List Ty) (v : TypeVar) :
    (pairing vs ts).get? v = Assoc.get? v (vs.zip ts).reverse :=
  Assoc.get?_ofList (vs.zip ts) v

theorem mem_of_get?_pairing {vs : List TypeVar} {ts : List Ty} {v : TypeVar} {t : Ty}
    (h : (pairing vs ts).get? v = some t) : v ∈ vs ∧ t ∈ ts := by
  rw [get?_pairing] at h
  have hmem : (v, t) ∈ vs.zip ts := List.mem_reverse.mp (Assoc.mem_of_get?_eq_some h)
  exact ⟨(List.of_mem_zip hmem).1, (List.of_mem_zip hmem).2⟩

theorem get?_pairing_of_notMem {vs : List TypeVar} (ts : List Ty) {v : TypeVar} (hv : v ∉ vs) :
    (pairing vs ts).get? v = none := by
  apply Option.eq_none_iff_forall_ne_some.mpr
  intro t ht
  exact hv (mem_of_get?_pairing ht).1

theorem get?_pairing_ne_none {vs : List TypeVar} {ts : List Ty} (hlen : vs.length ≤ ts.length)
    {v : TypeVar} (hv : v ∈ vs) : (pairing vs ts).get? v ≠ none := by
  have hkey : v ∈ Assoc.keys (vs.zip ts).reverse := by
    rw [Assoc.keys, List.map_reverse, List.mem_reverse, List.map_fst_zip hlen]
    exact hv
  rw [get?_pairing, Ne, Assoc.get?_eq_none_iff]
  exact not_not_intro hkey

theorem hasPlaceholders_eq_false_iff (s : Substitution) :
    s.hasPlaceholders = false ↔ ∀ p, s.placeholder? p = none := by
  constructor
  · intro h p
    simp only [hasPlaceholders, Bool.or_eq_false_iff, Option.isSome_eq_false_iff,
      Option.isNone_iff_eq_none] at h
    cases p with
    | self => exact h.1.1
    | inst => exact h.1.2
    | singleton => exact h.2
  · intro h
    have hself : s.self = none := h .self
    have hinst : s.inst = none := h .inst
    have hsingleton : s.singleton = none := h .singleton
    simp [hasPlaceholders, hself, hinst, hsingleton]

theorem isDisjoint_iff (s : Substitution) (vs : List TypeVar) :
    s.isDisjoint vs = true ↔ (∀ p, s.placeholder? p = none) ∧ ∀ v ∈ vs, s.get? v = none := by
  rw [isDisjoint, Bool.and_eq_true, Bool.not_eq_true', hasPlaceholders_eq_false_iff]
  refine and_congr_right fun _ => ?_
  simp only [List.all_eq_true, decide_eq_true_eq, get?, Assoc.get?_eq_none_iff, Assoc.keys,
    List.mem_map, not_exists, not_and]
  constructor
  · exact fun h v hv e he heq => h e he (heq ▸ hv)
  · exact fun h e he hv => h e.1 hv e he rfl

theorem isEmpty_iff (s : Substitution) :
    s.isEmpty = true ↔ (∀ p, s.placeholder? p = none) ∧ ∀ v, s.get? v = none := by
  rw [isEmpty, Bool.and_eq_true, Bool.not_eq_true', hasPlaceholders_eq_false_iff, and_comm]
  refine and_congr_right fun _ => ?_
  rw [List.isEmpty_iff]
  constructor
  · intro h v
    rw [get?, h, Assoc.get?_nil]
  · intro h
    cases hs : s.vars with
    | nil => rfl
    | cons e m =>
        have := h e.1
        rw [get?, hs, Assoc.get?, if_pos rfl] at this
        exact absurd this (Option.some_ne_none _)

end Substitution

/-- A type with the images of its variables and placeholders in their places. -/
def Ty.subst (s : Substitution) (t : Ty) : Ty := t.rewrite s.image?

theorem Ty.subst_eq (s : Substitution) (t : Ty) :
    t.subst s = (s.image? t).getD (t.mapParts (Ty.subst s)) := Ty.rewrite_eq s.image? t

end Subtyping
