import Subtyping.Outcome

/-!
# Goals

A goal says what has to be shown, in which order it is tried, and where on the path of the check.
It names the nested constraints without saying how they are decided: `Goal.solve` takes that as an
argument, so one set of goals serves the check with its memory as well as the plain rules.
-/

namespace Subtyping

inductive Goal
  | trivial
  | impossible (reason : Reason)
  | nested (c : Constraint)
  /-- One after the other; the second is not tried if the first fails. -/
  | both (first second : Goal)
  /-- The first, or else the second; the failure of the first is the one that counts. -/
  | either (first second : Goal)
  | within (step : Step) (body : Goal)
  | parameters (method : Atom) (body : Goal)
  /-- A goal over fresh variables for the type parameters of two overloads, which are taken to be
  equal position by position. -/
  | fresh (sub sup : List TypeVar) (body : List TypeVar → List TypeVar → Goal)

namespace Goal

def all : List Goal → Goal
  | [] => trivial
  | g :: gs => both g (all gs)

/-- Some goal, tried in order, or the given one if there is nothing to try. -/
def any (otherwise : Goal) : List Goal → Goal
  | [] => otherwise
  | [g] => g
  | g :: gs => either g (any otherwise gs)

end Goal

/-- What a check hands on besides its outcome: the supply of fresh variables and what it keeps for
later. -/
structure Progress (κ : Type) where
  supply : FreshSupply
  kept : κ

/-- A way to decide constraints under assumptions at a place on the path. -/
abbrev Decision (κ : Type) :=
  Assumptions → Path → Constraint → Progress κ → Outcome × Progress κ

/-- The outcome of a goal when `decide` decides the nested constraints. -/
def Goal.solve {κ : Type} (decide : Decision κ) :
    Goal → Assumptions → Path → Progress κ → Outcome × Progress κ
  | trivial, _, _, σ => (.success, σ)
  | impossible reason, _, path, σ => (.failure ⟨reason, path⟩, σ)
  | nested c, assumed, path, σ => decide assumed path c σ
  | both g h, assumed, path, σ =>
      match g.solve decide assumed path σ with
      | (.success, σ) => h.solve decide assumed path σ
      | (.failure f, σ) => (.failure f, σ)
  | either g h, assumed, path, σ =>
      match g.solve decide assumed path σ with
      | (.success, σ) => (.success, σ)
      | (.failure f, σ) =>
          match h.solve decide assumed path σ with
          | (.success, σ) => (.success, σ)
          | (.failure _, σ) => (.failure f, σ)
  | within step g, assumed, path, σ => g.solve decide assumed (path ++ [step]) σ
  | parameters method g, assumed, path, σ =>
      let (o, σ) := g.solve decide assumed path σ
      (o.mapFailure (Failure.asParameter method), σ)
  | fresh sub sup body, assumed, path, σ =>
      let (vs, supply) := σ.supply.drawAll sub
      let (ws, supply) := supply.drawAll sup
      (body vs ws).solve decide (equalities vs ws ++ assumed) path { σ with supply }

end Subtyping
