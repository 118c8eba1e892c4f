import Subtyping.Signature.Block
import Subtyping.Params.CallShape

/-!
# Signatures

A signature is one overload of a method: type parameters of its own, a parameter list, perhaps a
block, and a result. It also records where it was declared, which is no part of what it means:
`Alike` compares all the rest.
-/

namespace Subtyping

structure Declaration where
  owner : Atom
  name : Atom
deriving DecidableEq

structure Signature where
  typeParams : List TypeVar := []
  params : Params Ty := {}
  block : Option Block := none
  result : Ty
  declarations : List Declaration := []
deriving DecidableEq

namespace Signature

/-- Signatures that differ at most in where they were declared. -/
def Alike (a b : Signature) : Prop := { a with declarations := b.declarations } = b

instance (a b : Signature) : Decidable (a.Alike b) :=
  inferInstanceAs (Decidable ({ a with declarations := b.declarations } = b))

def types (m : Signature) : List Ty :=
  m.params.contents ++ m.block.toList.flatMap Block.types ++ [m.result]

/-- The variables that occur in a signature and are not its own type parameters. -/
def freeVars (m : Signature) : List TypeVar :=
  (m.types.flatMap Ty.vars).filter (· ∉ m.typeParams)

def mapTypes (f : Ty → Ty) (m : Signature) : Signature :=
  { m with params := m.params.map f, block := m.block.map (Block.mapTypes f), result := f m.result }

/-- A signature at given types for its own type parameters, which it loses. -/
def instantiate (m : Signature) (s : Substitution) : Signature :=
  { m.mapTypes (Ty.subst s) with typeParams := [] }

/-- A signature with a substitution applied to all but its own type parameters. One that the
substitution cannot touch stays as it is. -/
def subst (s : Substitution) (m : Signature) : Signature :=
  if s.isEmpty || s.isDisjoint m.freeVars then m
  else { m.instantiate (s.except m.typeParams) with typeParams := m.typeParams }

/-- A signature at other variables for its own type parameters. One that has none stays as it
is. -/
def withVars (m : Signature) (vs : List TypeVar) : Signature :=
  if m.typeParams.isEmpty then m else m.instantiate (.rename m.typeParams vs)

/-- A call, with or without a block, is accepted when its arguments are and a block is given where
one is needed and only where one is taken. -/
structure Accepts (m : Signature) (call : CallShape) (blockGiven : Bool) : Prop where
  params : m.params.Accepts call
  taken : blockGiven = true → m.block ≠ none
  needed : ∀ b ∈ m.block, b.optional = false → blockGiven = true

theorem accepts_iff {m : Signature} {call : CallShape} {blockGiven : Bool} :
    m.Accepts call blockGiven ↔
      m.params.Accepts call ∧ (blockGiven = true → m.block ≠ none) ∧
        ∀ b ∈ m.block, b.optional = false → blockGiven = true := by
  constructor
  · rintro ⟨params, taken, needed⟩
    exact ⟨params, taken, needed⟩
  · rintro ⟨params, taken, needed⟩
    exact ⟨params, taken, needed⟩

instance (m : Signature) (call : CallShape) (blockGiven : Bool) :
    Decidable (m.Accepts call blockGiven) :=
  decidable_of_iff _ accepts_iff.symm

theorem types_mapTypes (f : Ty → Ty) (m : Signature) : (m.mapTypes f).types = m.types.map f := by
  rcases m with ⟨vs, p, b, r, ds⟩
  cases b <;> simp [mapTypes, types, Block.mapTypes, Block.types, Params.contents_map]

theorem types_instantiate (m : Signature) (s : Substitution) :
    (m.instantiate s).types = m.types.map (Ty.subst s) := types_mapTypes _ m

theorem mapTypes_congr {f g : Ty → Ty} {m : Signature} (h : ∀ t ∈ m.types, f t = g t) :
    m.mapTypes f = m.mapTypes g := by
  rcases m with ⟨vs, p, b, r, ds⟩
  simp only [types, List.mem_append, List.mem_singleton] at h
  have hp : p.map f = p.map g := Params.map_congr fun t ht => h t (.inl (.inl ht))
  have hr : f r = g r := h r (.inr rfl)
  have hb : b.map (Block.mapTypes f) = b.map (Block.mapTypes g) := by
    refine Option.map_congr fun c hc => ?_
    subst hc
    have hparts : ∀ t ∈ c.types, f t = g t := fun t ht => h t (.inl (.inr (by simpa using ht)))
    have hcp : c.params.map f = c.params.map g :=
      Params.map_congr fun t ht => hparts t (List.mem_append_left _ ht)
    have hcr : f c.result = g c.result :=
      hparts c.result (List.mem_append_right _ (List.mem_singleton_self _))
    rw [Block.mapTypes, Block.mapTypes, hcp, hcr]
  simp only [mapTypes, hp, hr, hb]

theorem mapTypes_mapTypes (f g : Ty → Ty) (m : Signature) :
    (m.mapTypes f).mapTypes g = m.mapTypes fun t => g (f t) := by
  rcases m with ⟨vs, p, b, r, ds⟩
  cases b <;> simp [mapTypes, Block.mapTypes, Params.map_map]

theorem mapTypes_id (m : Signature) : m.mapTypes id = m := by
  rcases m with ⟨vs, p, b, r, ds⟩
  cases b <;> simp [mapTypes, Block.mapTypes, Params.map_id]

end Signature

end Subtyping
