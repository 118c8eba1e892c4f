import Subtyping.Params.Basic

/-!
# Pairing the slots of two parameter lists

When a signature is to stand for another, every slot through which a call of the other may pass an
argument is paired with the slot that receives it. `pairs?` lists these pairs, and answers nothing
when the shapes of the lists already rule the use out.

With `p` standing for `q`, the positional slots are paired as follows.

| rest slots   | pairs                                                                           |
|--------------|---------------------------------------------------------------------------------|
| both have    | one by one, the shorter list goes on with its rest slot; the rest slots last    |
| only `q` has | none: a long call of `q` would have no slot in `p`                              |
| only `p` has | the slots of `q` one by one, those beyond `p` with the rest slot of `p`         |
| neither has  | one by one; every slot of `q` needs a counterpart, and a required slot of `p`   |
|              | must not be left over                                                           |
-/

namespace Subtyping.Params

variable {α : Type}

/-- The pairs of positional slots when `p` is to stand for `q`. -/
def positionalPairs? (p q : Params α) : Option (List (α × α)) :=
  match p.rest, q.rest with
  | none, some _ => none
  | some x, some y =>
      some ((p.fixed.rightpad q.fixedSize x).zip (q.fixed.rightpad p.fixedSize y) ++ [(x, y)])
  | some x, none => some ((p.fixed.rightpad q.fixedSize x).zip q.fixed)
  | none, none =>
      if p.required.length ≤ q.fixedSize ∧ q.fixedSize ≤ p.fixedSize then
        some (p.fixed.zip q.fixed)
      else none

/-- The pairs of keyword slots when `p` is to stand for `q`. -/
def keywordPairs? (p q : Params α) : Option (List (α × α)) :=
  if p.requiredKeywords.all fun e => Assoc.has e.1 q.requiredKeywords then
    (q.namedKeywords.mapM fun e =>
      ((Assoc.get? e.1 p.namedKeywords).or p.restKeywords).map fun x => (x, e.2)).map fun named =>
        named ++ (p.restKeywords.bind fun x => q.restKeywords.map fun y => (x, y)).toList
  else none

/-- The slots of `p` beside the slots of `q`, positional ones first, when `p` is to stand for
`q`. -/
def pairs? (p q : Params α) : Option (List (α × α)) :=
  (positionalPairs? p q).bind fun positional =>
    (keywordPairs? p q).map fun keywords => positional ++ keywords

end Subtyping.Params
