import Subtyping.Goal.Basic
import Subtyping.Params.Pairing
import Subtyping.Store

/-!
# The rules of subtyping

What has to be shown for one type to be usable where another is expected. The first line that
applies counts.

| sub \ sup           | goal                                            |
|---------------------|-------------------------------------------------|
| the same type       | nothing                                         |
| one side unknown    | nothing                                         |
| name, name          | the interface of one against that of the other  |
| no variable, var    | nothing                                         |
| union, any type     | some member against the type                    |
| any type, union     | the type against every member                   |
| all else            | impossible                                      |
-/

namespace Subtyping

namespace Goal

/-- Parameters `p` may stand for parameters `q`: whatever may be passed to a slot of `q` may be
passed to its counterpart. -/
def params (method : Atom) (p q : Params Ty) : Goal :=
  match p.pairs? q with
  | none => impossible (.parameterMismatch method)
  | some pairs => parameters method (all (pairs.map fun e => nested ⟨e.2, e.1⟩))

/-- A block is taken on both sides or on neither. -/
def blockGiven (method : Atom) (sub sup : Option Block) : Goal :=
  if sub.isSome = sup.isSome then trivial else impossible (.blockMismatch method)

/-- The block of one side may stand for that of the other. The method calls the block, so the
parameters change roles. -/
def block (method : Atom) : Option Block → Option Block → Goal
  | some sub, some sup =>
      both (params method sup.params sub.params) (nested ⟨sub.result, sup.result⟩)
  | _, _ => trivial

/-- A signature without type parameters may stand for another. -/
def signature (method : Atom) (sub sup : Signature) : Goal :=
  all [params method sub.params sup.params, blockGiven method sub.block sup.block,
    block method sub.block sup.block, nested ⟨sub.result, sup.result⟩]

/-- An overload may stand for another, at fresh variables for the type parameters of both. -/
def overload (method : Atom) (sub sup : Signature) : Goal :=
  fresh sub.typeParams sup.typeParams fun vs ws =>
    let sub := sub.withVars vs
    let sup := sup.withVars ws
    within (.overloads method sub sup) (signature method sub sup)

/-- Every overload that is expected of a method has one that may stand for it. -/
def method (name : Atom) (sub sup : List Signature) : Goal :=
  all <| sup.map fun q => any (impossible (.methodMissing name)) (sub.map fun p => overload name p q)

/-- Every method that is expected is there and may stand for the expected one. -/
def interface (sub sup : Interface) : Goal :=
  all <| sup.methods.map fun q =>
    match sub.method? q.name with
    | none => impossible (.methodMissing q.name)
    | some p => within (.method q.name) (method q.name p.overloads q.overloads)

end Goal

/-- What has to be shown for a constraint. -/
def Store.goal (store : Store) (c : Constraint) : Goal :=
  if c.sub = c.sup ∨ c.sub = .any ∨ c.sup = .any then .trivial
  else match c.sub, c.sup with
    | .name h k ts, .name h' k' us =>
        match store.expand h k ts, store.expand h' k' us with
        | .ok sub, .ok sup => .interface sub sup
        | _, _ => .impossible (.unknownPair c)
    | .var v, .union us => .all (us.map fun u => .nested ⟨.var v, u⟩)
    | .var _, _ => .impossible (.unknownPair c)
    | _, .var _ => .trivial
    | .union ts, _ => .any (.impossible (.unknownPair c)) (ts.map fun t => .nested ⟨t, c.sup⟩)
    | _, .union us => .all (us.map fun u => .nested ⟨c.sub, u⟩)
    | _, _ => .impossible (.unknownPair c)

end Subtyping
