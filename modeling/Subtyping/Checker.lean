import Subtyping.Goal.Rules
import Subtyping.Limits
import Subtyping.Memo

/-!
# Checker

The check of a constraint. Types may refer to themselves, so a constraint that is already being
checked further up the path is taken to hold. Completed checks are kept and answered from memory
afterwards. A check that comes to the depth limit fails there; whatever was found out below a place
where that happened depends on the path and is not kept.
-/

namespace Subtyping

/-- What a checker keeps from one check to the next. -/
structure Kept where
  memo : Memo := {}
  /-- How often the depth limit was met. -/
  ceilingHits : Nat := 0
deriving DecidableEq

/-- The check of a constraint with room for so many nested constraints. -/
def check (store : Store) (room : Nat) : Decision Kept := fun assumed path c σ =>
  match σ.kept.memo.get? c with
  | some o => (o.mapFailure (Failure.after path), σ)
  | none =>
      if c ∈ assumed then (.success, σ)
      else match room with
        | 0 =>
            (.failure ⟨.depthExceeded, path⟩,
              { σ with kept.ceilingHits := σ.kept.ceilingHits + 1 })
        | room + 1 =>
            let (o, τ) :=
              (store.goal c).solve (check store room) (c :: assumed) (path ++ [.types c]) σ
            if τ.kept.ceilingHits = σ.kept.ceilingHits then
              let relative := o.mapFailure (Failure.dropPath path.length)
              (o, { τ with kept.memo := τ.kept.memo.insert c relative })
            else (o, τ)

section Equations

variable {store : Store} {room : Nat} {assumed : Assumptions} {path : Path} {c : Constraint}
  {σ : Progress Kept}

/-- A completed check is answered from memory, whatever is assumed and however little room is
left. -/
theorem check_of_memo {o : Outcome} (h : σ.kept.memo.get? c = some o) :
    check store room assumed path c σ = (o.mapFailure (Failure.after path), σ) := by
  unfold check
  simp [h]

theorem check_of_assumed (h : σ.kept.memo.get? c = none) (hc : c ∈ assumed) :
    check store room assumed path c σ = (.success, σ) := by
  unfold check
  simp [h, hc]

theorem check_zero (h : σ.kept.memo.get? c = none) (hc : c ∉ assumed) :
    check store 0 assumed path c σ =
      (.failure ⟨.depthExceeded, path⟩,
        { σ with kept.ceilingHits := σ.kept.ceilingHits + 1 }) := by
  unfold check
  simp [h, hc]

theorem check_succ (h : σ.kept.memo.get? c = none) (hc : c ∉ assumed) :
    check store (room + 1) assumed path c σ =
      let r := (store.goal c).solve (check store room) (c :: assumed) (path ++ [.types c]) σ
      if r.2.kept.ceilingHits = σ.kept.ceilingHits then
        (r.1, { r.2 with
          kept.memo := r.2.kept.memo.insert c (r.1.mapFailure (Failure.dropPath path.length)) })
      else r := by
  conv => lhs; unfold check
  simp [h, hc]

end Equations

/-- A checker: its depth limit, how many constraints are open above it, and what it keeps. -/
structure Checker where
  maxDepth : Nat := Limits.maxDepth
  depth : Nat := 0
  kept : Kept := {}
deriving DecidableEq

namespace Checker

def withMaxDepth (k : Checker) (maxDepth : Nat) : Checker := { k with maxDepth }

def memoSize (k : Checker) : Nat := k.kept.memo.size

def clear (k : Checker) : Checker := { k with kept.memo := {} }

/-- The check of a constraint under assumptions at a place on a path. -/
def checkAt (k : Checker) (store : Store) (supply : FreshSupply) (assumed : Assumptions)
    (path : Path) (c : Constraint) : Outcome × Checker × FreshSupply :=
  let (o, σ) := Subtyping.check store (k.maxDepth - k.depth) assumed path c ⟨supply, k.kept⟩
  (o, { k with kept := σ.kept }, σ.supply)

/-- The check of a constraint without assumptions from an empty path. -/
def isSubtype (k : Checker) (store : Store) (supply : FreshSupply) (sub sup : Ty) :
    Outcome × Checker × FreshSupply :=
  k.checkAt store supply [] [] ⟨sub, sup⟩

end Checker

end Subtyping
