import Subtyping.Signature.Basic

/-!
# Combining signatures

Three ways to make one signature of two: `unify` takes the calls of either overload, `join?` is
the signature of a value that has one of the two methods, and `meet?` that of a value that has
both. The last two may fail, when no call suits both sides. Type parameters are renamed where the
two sides would share them.
-/

namespace Subtyping.Signature

/-- The signature that takes the calls of both overloads, each with fresh type parameters. -/
def unify (a b : Signature) (supply : FreshSupply) : Signature × FreshSupply :=
  let (vs, supply) := supply.drawAll a.typeParams
  let (ws, supply) := supply.drawAll b.typeParams
  let a' := a.instantiate (.rename a.typeParams vs)
  let b' := b.instantiate (.rename b.typeParams ws)
  let block := match a'.block, b'.block with
    | some x, some y => some (x.combine y)
    | some x, none => some x.toOptional
    | none, some y => some y.toOptional
    | none, none => none
  ({ typeParams := vs ++ ws
     params := a'.params.union b'.params
     block
     result := a'.result.or b'.result
     declarations := a.declarations ++ b.declarations }, supply)

def shared (a b : Signature) : List TypeVar := b.typeParams.filter (· ∈ a.typeParams)

/-- A second signature with fresh variables for the type parameters that it shares with the first,
and the type parameters of both. -/
def separate (a b : Signature) (supply : FreshSupply) :
    List TypeVar × Signature × FreshSupply :=
  let own := a.typeParams ++ b.typeParams.filter (· ∉ a.typeParams)
  let common := shared a b
  if common.isEmpty then (own, b, supply)
  else
    let (vs, supply) := supply.drawAll common
    (own ++ vs, b.instantiate (.rename common vs), supply)

/-- The block of a join: each side hands the block what it likes, and both must be content with
its result. A block that only one side knows has to be optional. -/
def joinBlock? : Option Block → Option Block → Option (Option Block)
  | some x, some y =>
      some (some ⟨x.params.union y.params, x.result.and y.result, x.optional && y.optional⟩)
  | some x, none => if x.optional then some (some x) else none
  | none, some y => if y.optional then some (some y) else none
  | none, none => some none

/-- The block of a meet: it takes only what both sides would hand it. -/
def meetBlock? : Option Block → Option Block → Option (Option Block)
  | some x, some y =>
      (x.params.inter? y.params).map fun params =>
        some ⟨params, x.result.or y.result, x.optional || y.optional⟩
  | some x, none => some (some x)
  | none, some y => some (some y)
  | none, none => some none

/-- The signature of a value that has one method or the other. -/
def join? (a b : Signature) (supply : FreshSupply) : Option Signature × FreshSupply :=
  let (typeParams, b, supply) := separate a b supply
  ((a.params.inter? b.params).bind fun params =>
    (joinBlock? a.block b.block).map fun block =>
      { typeParams, params, block
        result := a.result.or b.result
        declarations := a.declarations ++ b.declarations }, supply)

/-- The signature of a value that has both methods. -/
def meet? (a b : Signature) (supply : FreshSupply) : Option Signature × FreshSupply :=
  let (typeParams, b, supply) := separate a b supply
  ((meetBlock? a.block b.block).map fun block =>
      { typeParams, block
        params := a.params.union b.params
        result := a.result.and b.result
        declarations := a.declarations ++ b.declarations }, supply)

end Subtyping.Signature
