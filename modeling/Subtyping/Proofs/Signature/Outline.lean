import Subtyping.Proofs.Params.Combine
import Subtyping.Proofs.Signature.Types

/-!
# When signatures can be combined

Whether two signatures have a join or a meet is a matter of their outlines, that is, of the slots of
their parameter lists and blocks without the types in them. There is no join when no call suits both
sides or when just one of them takes a block and needs it, and no meet when both take blocks and no
call suits both blocks (`join?_meet?_eq_none_iff`).
-/

namespace Subtyping

/-! ## Outlines -/

namespace Params

variable {α : Type}

/-- The slots of a list, whatever they carry. -/
def outline (p : Params α) : Params Unit := p.map fun _ => ()

/-- Whether some call is accepted by both lists. -/
def Overlap (p q : Params α) : Prop := ∃ call, p.Accepts call ∧ q.Accepts call

theorem outline_map {β : Type} (f : α → β) (p : Params α) : (p.map f).outline = p.outline :=
  map_map f _ p

theorem overlap_comm {p q : Params α} : p.Overlap q ↔ q.Overlap p := by
  refine exists_congr fun call => ?_
  rw [and_comm]

theorem overlap_outline_iff {p q : Params α} : p.outline.Overlap q.outline ↔ p.Overlap q := by
  refine exists_congr fun call => ?_
  rw [outline, outline, accepts_map, accepts_map]

theorem inter?_eq_none_iff {p q : Params Ty} :
    p.inter? q = none ↔ ¬p.outline.Overlap q.outline := by
  rw [overlap_outline_iff, inter?, interWith?_eq_none_iff, ← Bool.not_eq_true,
    reconcilable_iff_exists, Overlap]

end Params

/-- What of a signature does not depend on types: its slots, and those of its block with whether this
may be left out. -/
structure Outline where
  params : Params Unit
  block : Option (Params Unit × Bool) := none

namespace Outline

/-- Whether just one of two outlines has a block, and one that must be given. -/
def Lopsided (o o' : Outline) : Prop :=
  ∃ x, (o.block = some x ∧ o'.block = none ∨ o.block = none ∧ o'.block = some x) ∧ x.2 = false

/-- Whether two outlines have blocks that no call suits alike. -/
def Estranged (o o' : Outline) : Prop :=
  ∃ x y, o.block = some x ∧ o'.block = some y ∧ ¬x.1.Overlap y.1

theorem lopsided_comm {o o' : Outline} : o.Lopsided o' ↔ o'.Lopsided o := by
  refine exists_congr fun x => and_congr_left fun _ => ?_
  rw [or_comm, and_comm, and_comm (a := o.block = some x)]

theorem estranged_comm {o o' : Outline} : o.Estranged o' ↔ o'.Estranged o := by
  have hswap : ∀ {o o' : Outline}, o.Estranged o' → o'.Estranged o := by
    rintro o o' ⟨x, y, hx, hy, hnone⟩
    exact ⟨y, x, hy, hx, fun h => hnone (Params.overlap_comm.mp h)⟩
  exact ⟨hswap, hswap⟩

end Outline

def Block.outline (b : Block) : Params Unit × Bool := (b.params.outline, b.optional)

namespace Signature

def outline (m : Signature) : Outline := ⟨m.params.outline, m.block.map Block.outline⟩

variable {a b : Signature} {supply : FreshSupply}

theorem lopsided_outline_iff :
    a.outline.Lopsided b.outline ↔
      ∃ x, (a.block = some x ∧ b.block = none ∨ a.block = none ∧ b.block = some x) ∧
        x.optional = false := by
  simp only [Outline.Lopsided, outline]
  cases a.block <;> cases b.block <;> simp [Block.outline]

theorem estranged_outline_iff :
    a.outline.Estranged b.outline ↔
      ∃ x y, a.block = some x ∧ b.block = some y ∧ ¬x.params.Overlap y.params := by
  simp only [Outline.Estranged, outline]
  cases a.block <;> cases b.block <;> simp [Block.outline, Params.overlap_outline_iff]

theorem outline_instantiate (m : Signature) (s : Substitution) :
    (m.instantiate s).outline = m.outline := by
  have hblock : ∀ b : Block, (b.mapTypes (Ty.subst s)).outline = b.outline := fun b =>
    Prod.ext (Params.outline_map _ b.params) rfl
  have hblocks : (m.instantiate s).block.map Block.outline = m.block.map Block.outline := by
    rw [instantiate, mapTypes, Option.map_map]
    exact Option.map_congr fun b _ => hblock b
  have hparams : (m.instantiate s).params.outline = m.params.outline := Params.outline_map _ m.params
  rw [outline, outline, hparams, hblocks]

theorem outline_separated (a b : Signature) (supply : FreshSupply) :
    (separated a b supply).outline = b.outline := by
  unfold separated separate
  dsimp only
  split
  next => rfl
  next => exact outline_instantiate b _

/-! ## When there is no join or meet -/

theorem joinBlock?_eq_none_iff {x y : Option Block} :
    joinBlock? x y = none ↔
      ∃ o, (x.map Block.outline = some o ∧ y.map Block.outline = none ∨
        x.map Block.outline = none ∧ y.map Block.outline = some o) ∧ o.2 = false := by
  cases x <;> cases y <;> simp [joinBlock?, Block.outline]

theorem meetBlock?_eq_none_iff {x y : Option Block} :
    meetBlock? x y = none ↔
      ∃ o o', x.map Block.outline = some o ∧ y.map Block.outline = some o' ∧
        ¬o.1.Overlap o'.1 := by
  cases x <;> cases y <;> simp [meetBlock?, Block.outline, Params.inter?_eq_none_iff]

theorem join?_eq_none_iff :
    (a.join? b supply).1 = none ↔
      ¬a.outline.params.Overlap b.outline.params ∨ a.outline.Lopsided b.outline := by
  have hparts : (a.join? b supply).1 = none ↔
      a.params.inter? (a.separated b supply).params = none ∨
        joinBlock? a.block (a.separated b supply).block = none := by
    show ((a.params.inter? (a.separated b supply).params).bind fun _ =>
      (joinBlock? a.block (a.separated b supply).block).map _) = none ↔ _
    cases a.params.inter? (a.separated b supply).params <;> simp
  rw [hparts, Params.inter?_eq_none_iff, joinBlock?_eq_none_iff, ← outline_separated a b supply]
  rfl

theorem meet?_eq_none_iff :
    (a.meet? b supply).1 = none ↔ a.outline.Estranged b.outline := by
  have hparts : (a.meet? b supply).1 = none ↔
      meetBlock? a.block (a.separated b supply).block = none := Option.map_eq_none_iff
  rw [hparts, meetBlock?_eq_none_iff, ← outline_separated a b supply]
  rfl

/-- There is no join of two signatures if and only if no call is accepted by both parameter lists or
just one of the two has a block, which must be given. There is no meet if and only if both have blocks
and no call is accepted by the parameter lists of both blocks. So neither the order of the two matters
nor anything beyond their outlines, such as types, type parameters and fresh variables. -/
theorem join?_meet?_eq_none_iff (a b : Signature) (supply : FreshSupply) :
    ((a.join? b supply).1 = none ↔
      (¬∃ call, a.params.Accepts call ∧ b.params.Accepts call) ∨
        ∃ x, (a.block = some x ∧ b.block = none ∨ a.block = none ∧ b.block = some x) ∧
          x.optional = false) ∧
    ((a.meet? b supply).1 = none ↔
      ∃ x y, a.block = some x ∧ b.block = some y ∧
        ¬∃ call, x.params.Accepts call ∧ y.params.Accepts call) ∧
    ∀ supply' : FreshSupply,
      (((b.join? a supply').1 = none ↔ (a.join? b supply).1 = none) ∧
        ((b.meet? a supply').1 = none ↔ (a.meet? b supply).1 = none)) ∧
      ∀ a' b' : Signature, a'.outline = a.outline → b'.outline = b.outline →
        ((a'.join? b' supply').1 = none ↔ (a.join? b supply).1 = none) ∧
          ((a'.meet? b' supply').1 = none ↔ (a.meet? b supply).1 = none) := by
  refine ⟨?_, ?_, fun supply' => ⟨⟨?_, ?_⟩, fun a' b' ha hb => ⟨?_, ?_⟩⟩⟩
  · rw [join?_eq_none_iff, lopsided_outline_iff]
    exact or_congr_left (not_congr Params.overlap_outline_iff)
  · rw [meet?_eq_none_iff, estranged_outline_iff]
    rfl
  · rw [join?_eq_none_iff, join?_eq_none_iff, Params.overlap_comm, Outline.lopsided_comm]
  · rw [meet?_eq_none_iff, meet?_eq_none_iff, Outline.estranged_comm]
  · rw [join?_eq_none_iff, join?_eq_none_iff, ha, hb]
  · rw [meet?_eq_none_iff, meet?_eq_none_iff, ha, hb]

/-- A needed block on one side alone rules out a join and no meet, also with a type parameter in the
places of the types. -/
theorem join?_meet?_eq_none_iff_lopsided :
    let v : TypeVar := ⟨⟨1⟩, 0⟩
    let a : Signature :=
      { params := { required := [.nil] }, block := some ⟨{}, .nil, false⟩, result := .nil }
    let b : Signature := { params := { rest := some .bool }, result := .nil }
    let a' : Signature :=
      { typeParams := [v], params := { required := [.var v] }, block := some ⟨{}, .var v, false⟩,
        result := .var v }
    let b' : Signature := { typeParams := [v], params := { rest := some (.var v) }, result := .void }
    a'.outline = a.outline ∧ b'.outline = b.outline ∧
      (a.join? b {}).1 = none ∧ (b.join? a {}).1 = none ∧ (a'.join? b' ⟨7⟩).1 = none ∧
      (a.meet? b {}).1 ≠ none ∧ (a'.meet? b' ⟨7⟩).1 ≠ none := by
  intro v a b a' b'
  obtain ⟨hjoin, hmeet, hothers⟩ := join?_meet?_eq_none_iff a b {}
  have ha : a'.outline = a.outline := rfl
  have hb : b'.outline = b.outline := rfl
  have hnojoin : (a.join? b {}).1 = none := hjoin.mpr (.inr ⟨_, .inl ⟨rfl, rfl⟩, rfl⟩)
  have hsomemeet : (a.meet? b {}).1 ≠ none := by
    intro h
    obtain ⟨_, _, _, hblock, _⟩ := hmeet.mp h
    cases hblock
  obtain ⟨hjoin', hmeet'⟩ := (hothers ⟨7⟩).2 a' b' ha hb
  exact ⟨ha, hb, hnojoin, (hothers {}).1.1.mpr hnojoin, hjoin'.mpr hnojoin, hsomemeet,
    fun h => hsomemeet (hmeet'.mp h)⟩

end Signature

end Subtyping
