import Subtyping.Interface

/-!
# Store

The templates that names stand for, by name and by what the name is used as, and the names that
are declared to be classes or modules.
-/

namespace Subtyping

structure Store where
  templates : List (NameKind × Template) := []
  classes : List Atom := []
  modules : List Atom := []

/-- Why a name has no method table. -/
inductive ExpandError
  | unknownName (name : Atom) (kind : NameKind)
deriving DecidableEq

def NameKind.word : NameKind → String
  | .inst => "Instance"
  | .singleton => "Class"
  | .module => "Module"
  | .interface => "Interface"

def ExpandError.message : ExpandError → String
  | .unknownName name kind => s!"no {kind.word} definition for name #{name.position}"

namespace Store

def size (s : Store) : Nat := s.templates.length

/-- Whether an entry is the one for a name as it is used. -/
def isFor (name : Atom) (kind : NameKind) (e : NameKind × Template) : Bool :=
  e.1 == kind && e.2.name == name

/-- A store with a template, in the place of one for the same name and use. -/
def register (s : Store) (kind : NameKind) (t : Template) : Store :=
  { s with templates := (kind, t) :: s.templates.filter fun e => !isFor t.name kind e }

def declareClass (s : Store) (name : Atom) : Store := { s with classes := s.classes.insert name }

def declareModule (s : Store) (name : Atom) : Store := { s with modules := s.modules.insert name }

def isClass (s : Store) (name : Atom) : Bool := s.classes.contains name

def isModule (s : Store) (name : Atom) : Bool := s.modules.contains name

def template? (s : Store) (name : Atom) (kind : NameKind) : Option Template :=
  (s.templates.find? (isFor name kind)).map (·.2)

/-- The template for a name as it is used, or why there is none. -/
def template (s : Store) (name : Atom) (kind : NameKind) : Except ExpandError Template :=
  match s.template? name kind with
  | some t => .ok t
  | none => .error (.unknownName name kind)

/-- The class or module object of a name, if the name is declared to be a class or module. -/
def object? (s : Store) (name : Atom) : Option Ty :=
  if s.isClass name then some (.classObject name)
  else if s.isModule name then some (.moduleObject name)
  else none

/-- The method table of a name at given arguments. -/
def expand (s : Store) (name : Atom) (kind : NameKind) (args : List Ty) :
    Except ExpandError Interface :=
  (s.template name kind).map fun t =>
    t.instantiate (.name name kind args) args (.instancesOf name args) (s.object? name)

/-- Registering changes one entry and no other. -/
theorem template?_register (s : Store) (kind kind' : NameKind) (t : Template) (name : Atom) :
    (s.register kind t).template? name kind' =
      if kind' = kind ∧ name = t.name then some t else s.template? name kind' := by
  by_cases h : kind' = kind ∧ name = t.name
  · rcases h with ⟨rfl, rfl⟩
    simp [template?, register, isFor]
  · have hhead : isFor name kind' (kind, t) = false := by
      simp only [isFor, Bool.and_eq_false_iff, beq_eq_false_iff_ne]
      by_cases hk : kind' = kind
      · exact .inr fun hn => h ⟨hk, hn.symm⟩
      · exact .inl (Ne.symm hk)
    have htail : ∀ e : NameKind × Template,
        (!isFor t.name kind e && isFor name kind' e) = isFor name kind' e := by
      intro e
      cases he : isFor name kind' e with
      | false => simp
      | true =>
          simp only [isFor, Bool.and_eq_true, beq_iff_eq] at he
          rcases he with ⟨rfl, rfl⟩
          simp only [isFor, Bool.and_true, Bool.not_eq_true', Bool.and_eq_false_iff,
            beq_eq_false_iff_ne]
          by_cases hk : e.1 = kind
          · exact .inr fun hn => h ⟨hk, hn⟩
          · exact .inl hk
    simp [template?, register, hhead, h, List.find?_filter, htail]

end Store

end Subtyping
