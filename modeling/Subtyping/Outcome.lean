import Subtyping.Signature.Basic
import Subtyping.Constraint

/-!
# Outcomes

A check succeeds or fails for a reason, and a failure shows the path from the question that was
asked to the place where it was decided.
-/

namespace Subtyping

/-- A place on the path of a check. -/
inductive Step
  | types (c : Constraint)
  | method (name : Atom)
  /-- An overload of each side, with its type parameters replaced. -/
  | overloads (name : Atom) (sub sup : Signature)
deriving DecidableEq

/-- The places from the question asked down to the current one. -/
abbrev Path := List Step

inductive Reason
  /-- No rule relates the two types. -/
  | unknownPair (c : Constraint)
  | methodMissing (name : Atom)
  | parameterMismatch (name : Atom)
  /-- Just one side of the method takes a block. -/
  | blockMismatch (name : Atom)
  | depthExceeded
deriving DecidableEq

structure Failure where
  reason : Reason
  path : Path
deriving DecidableEq

inductive Outcome
  | success
  | failure (f : Failure)
deriving DecidableEq

namespace Failure

/-- A failure seen from further down its path. -/
def dropPath (n : Nat) (f : Failure) : Failure := { f with path := f.path.drop n }

/-- A failure seen from the start of a path that leads to it. -/
def after (path : Path) (f : Failure) : Failure := { f with path := path ++ f.path }

/-- A failure of a parameter of a method, unless the check just went too deep. -/
def asParameter (name : Atom) (f : Failure) : Failure :=
  match f.reason with
  | .depthExceeded => f
  | _ => { f with reason := .parameterMismatch name }

theorem dropPath_after (path : Path) (f : Failure) : (f.after path).dropPath path.length = f := by
  simp [dropPath, after]

theorem after_mk_nil (path : Path) (reason : Reason) : after path ⟨reason, []⟩ = ⟨reason, path⟩ := by
  simp [after]

theorem after_append (p q : Path) (f : Failure) : f.after (p ++ q) = (f.after q).after p := by
  simp [after]

theorem asParameter_path (method : Atom) (f : Failure) : (f.asParameter method).path = f.path := by
  rcases f with ⟨reason, path⟩
  cases reason <;> rfl

theorem asParameter_after (method : Atom) (p : Path) (f : Failure) :
    (f.after p).asParameter method = (f.asParameter method).after p := by
  rcases f with ⟨reason, path⟩
  cases reason <;> rfl

theorem dropPath_after_append (p : Path) (n : Nat) (f : Failure) :
    (f.after p).dropPath (p.length + n) = f.dropPath n := by
  simp [dropPath, after, List.drop_append]

end Failure

namespace Outcome

def isSuccess : Outcome → Bool
  | success => true
  | failure _ => false

def mapFailure (g : Failure → Failure) : Outcome → Outcome
  | success => success
  | failure f => failure (g f)

@[simp] theorem mapFailure_eq_success_iff {g : Failure → Failure} {o : Outcome} :
    o.mapFailure g = success ↔ o = success := by
  cases o <;> simp [mapFailure]

theorem mapFailure_mapFailure (g h : Failure → Failure) (o : Outcome) :
    (o.mapFailure g).mapFailure h = o.mapFailure fun f => h (g f) := by
  cases o <;> rfl

theorem mapFailure_after_append (p q : Path) (o : Outcome) :
    o.mapFailure (Failure.after (p ++ q)) =
      (o.mapFailure (Failure.after q)).mapFailure (Failure.after p) := by
  rw [mapFailure_mapFailure]
  congr 1
  funext f
  exact f.after_append p q

/-- The outcome of two checks in a row: the second counts if the first succeeds. -/
def andThen (o next : Outcome) : Outcome :=
  match o with
  | success => next
  | failure f => failure f

end Outcome

end Subtyping
