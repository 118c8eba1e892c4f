import Subtyping.Proofs.Params.Contents
import Subtyping.Signature.Algebra

/-!
# The types of combined signatures

Signatures are combined by unions and intersections of their types. So what holds of all types of two
signatures and carries over to unions and intersections holds of all types of what they are combined
to (`all_unify`, `all_join?`, `all_meet?`).
-/

namespace Subtyping

variable {P : Ty → Prop}

namespace Block

/-- Whether something holds of all types of a block. -/
def All (P : Ty → Prop) (b : Block) : Prop := ∀ t ∈ b.types, P t

theorem all_iff {b : Block} : b.All P ↔ b.params.All P ∧ P b.result := by
  simp only [All, types, List.mem_append, List.mem_singleton, or_imp, forall_and, forall_eq]
  rfl

theorem all_mapTypes {f : Ty → Ty} {b : Block} (h : b.All fun t => P (f t)) :
    (b.mapTypes f).All P := by
  obtain ⟨hparams, hresult⟩ := all_iff.mp h
  exact all_iff.mpr ⟨Params.all_map hparams, hresult⟩

theorem all_combine (hP : Ty.CarriesOver P) {b c : Block} (hb : b.All P) (hc : c.All P) :
    (b.combine c).All P := by
  obtain ⟨hparams, hresult⟩ := all_iff.mp hb
  obtain ⟨hparams', hresult'⟩ := all_iff.mp hc
  exact all_iff.mpr ⟨Params.all_union hP hparams hparams', hP.or hresult hresult'⟩

end Block

namespace Signature

/-- Whether something holds of all types of a signature. -/
def All (P : Ty → Prop) (m : Signature) : Prop := ∀ t ∈ m.types, P t

theorem all_iff {m : Signature} :
    m.All P ↔ m.params.All P ∧ (∀ b ∈ m.block, b.All P) ∧ P m.result := by
  cases hb : m.block <;>
    simp [All, types, hb, Params.All, Block.All, or_imp, forall_and]

theorem all_mapTypes {f : Ty → Ty} {m : Signature} (h : m.All fun t => P (f t)) :
    (m.mapTypes f).All P := by
  intro u hu
  rw [types_mapTypes] at hu
  obtain ⟨t, ht, rfl⟩ := List.mem_map.mp hu
  exact h t ht

/-! ## Blocks of combined signatures -/

/-- The block of a unified overload, which need not be given if one of the two takes none. -/
def unifiedBlock : Option Block → Option Block → Option Block
  | some x, some y => some (x.combine y)
  | some x, none => some x.toOptional
  | none, some y => some y.toOptional
  | none, none => none

section Blocks

variable (hP : Ty.CarriesOver P) {x y z : Option Block} (hx : ∀ b ∈ x, b.All P)
  (hy : ∀ b ∈ y, b.All P)
include hP hx hy

theorem all_unifiedBlock : ∀ b ∈ unifiedBlock x y, b.All P := by
  intro b hb
  rcases x with _ | x <;> rcases y with _ | y
  · cases hb
  · obtain rfl := Option.some.inj hb
    exact hy y rfl
  · obtain rfl := Option.some.inj hb
    exact hx x rfl
  · obtain rfl := Option.some.inj hb
    exact Block.all_combine hP (hx x rfl) (hy y rfl)

theorem all_joinBlock? (h : joinBlock? x y = some z) : ∀ b ∈ z, b.All P := by
  rcases x with _ | x <;> rcases y with _ | y
  · obtain rfl := Option.some.inj h
    nofun
  · obtain ⟨_, h⟩ := Option.ite_none_right_eq_some.mp h
    obtain rfl := Option.some.inj h
    exact hy
  · obtain ⟨_, h⟩ := Option.ite_none_right_eq_some.mp h
    obtain rfl := Option.some.inj h
    exact hx
  · obtain rfl := Option.some.inj h
    intro b hb
    obtain rfl := Option.some.inj hb
    obtain ⟨hxp, hxr⟩ := Block.all_iff.mp (hx x rfl)
    obtain ⟨hyp, hyr⟩ := Block.all_iff.mp (hy y rfl)
    exact Block.all_iff.mpr ⟨Params.all_union hP hxp hyp, hP.and hxr hyr⟩

theorem all_meetBlock? (h : meetBlock? x y = some z) : ∀ b ∈ z, b.All P := by
  rcases x with _ | x <;> rcases y with _ | y
  · obtain rfl := Option.some.inj h
    nofun
  · obtain rfl := Option.some.inj h
    exact hy
  · obtain rfl := Option.some.inj h
    exact hx
  · obtain ⟨params, hparams, rfl⟩ := Option.map_eq_some_iff.mp h
    intro b hb
    obtain rfl := Option.some.inj hb
    obtain ⟨hxp, hxr⟩ := Block.all_iff.mp (hx x rfl)
    obtain ⟨hyp, hyr⟩ := Block.all_iff.mp (hy y rfl)
    exact Block.all_iff.mpr ⟨Params.all_inter? hP hxp hyp hparams, hP.or hxr hyr⟩

end Blocks

/-! ## Combined signatures -/

/-- A signature at the variables that are drawn for its type parameters. -/
def freshened (m : Signature) (supply : FreshSupply) : Signature :=
  m.instantiate (.rename m.typeParams (supply.drawAll m.typeParams).1)

/-- What the second signature becomes beside the first. -/
def separated (a b : Signature) (supply : FreshSupply) : Signature := (separate a b supply).2.1

variable {a b r : Signature} {supply : FreshSupply}

theorem block_unify :
    (a.unify b supply).1.block =
      unifiedBlock (a.freshened supply).block (b.freshened (supply.drawAll a.typeParams).2).block :=
  rfl

theorem all_unify (hP : Ty.CarriesOver P) (ha : (a.freshened supply).All P)
    (hb : (b.freshened (supply.drawAll a.typeParams).2).All P) : (a.unify b supply).1.All P := by
  obtain ⟨hap, hablock, har⟩ := all_iff.mp ha
  obtain ⟨hbp, hbblock, hbr⟩ := all_iff.mp hb
  rw [all_iff, block_unify]
  exact ⟨Params.all_union hP hap hbp, all_unifiedBlock hP hablock hbblock, hP.or har hbr⟩

theorem exists_of_join? (h : (a.join? b supply).1 = some r) :
    ∃ params block, a.params.inter? (a.separated b supply).params = some params ∧
      joinBlock? a.block (a.separated b supply).block = some block ∧
      r = ⟨(separate a b supply).1, params, block, a.result.or (a.separated b supply).result,
        a.declarations ++ (a.separated b supply).declarations⟩ := by
  obtain ⟨params, hparams, h⟩ := Option.bind_eq_some_iff.mp h
  obtain ⟨block, hblock, rfl⟩ := Option.map_eq_some_iff.mp h
  exact ⟨params, block, hparams, hblock, rfl⟩

theorem exists_of_meet? (h : (a.meet? b supply).1 = some r) :
    ∃ block, meetBlock? a.block (a.separated b supply).block = some block ∧
      r = ⟨(separate a b supply).1, a.params.union (a.separated b supply).params, block,
        a.result.and (a.separated b supply).result,
        a.declarations ++ (a.separated b supply).declarations⟩ := by
  obtain ⟨block, hblock, rfl⟩ := Option.map_eq_some_iff.mp h
  exact ⟨block, hblock, rfl⟩

theorem all_join? (hP : Ty.CarriesOver P) (ha : a.All P) (hb : (a.separated b supply).All P)
    (h : (a.join? b supply).1 = some r) : r.All P := by
  obtain ⟨params, block, hparams, hblock, rfl⟩ := exists_of_join? h
  obtain ⟨hap, hablock, har⟩ := all_iff.mp ha
  obtain ⟨hbp, hbblock, hbr⟩ := all_iff.mp hb
  rw [all_iff]
  exact ⟨Params.all_inter? hP hap hbp hparams, all_joinBlock? hP hablock hbblock hblock,
    hP.or har hbr⟩

theorem all_meet? (hP : Ty.CarriesOver P) (ha : a.All P) (hb : (a.separated b supply).All P)
    (h : (a.meet? b supply).1 = some r) : r.All P := by
  obtain ⟨block, hblock, rfl⟩ := exists_of_meet? h
  obtain ⟨hap, hablock, har⟩ := all_iff.mp ha
  obtain ⟨hbp, hbblock, hbr⟩ := all_iff.mp hb
  rw [all_iff]
  exact ⟨Params.all_union hP hap hbp, all_meetBlock? hP hablock hbblock hblock, hP.and har hbr⟩

end Signature

end Subtyping
