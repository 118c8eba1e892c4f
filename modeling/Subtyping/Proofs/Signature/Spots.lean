import Subtyping.Proofs.Goal.Fails
import Subtyping.Proofs.Params.Aligned
import Subtyping.Proofs.Signature.Unify

/-!
# The spots of a signature

A signature has types at certain spots, and when it is to stand for another one, the types that both
have at a spot are compared. That is all there is to it once the shapes fit (`Goal.fails_signature`).
Two overloads that are unified have the union of their types at each spot (`at?_instantiate_unify`).
-/

namespace Subtyping

/-- Where a type may stand in a signature. -/
inductive Spot
  | parameter (i : Inlet)
  | blockParameter (i : Inlet)
  | blockResult
  | result

/-- What is asked of the types of two signatures at a spot when the first is to stand for the second.
The signature takes its arguments, and gives what its block takes. -/
def Spot.constraint : Spot → Ty → Ty → Constraint
  | .parameter _, x, y => ⟨y, x⟩
  | _, x, y => ⟨x, y⟩

namespace Signature

/-- The type at a spot, if the signature has one there. -/
def at? (m : Signature) : Spot → Option Ty
  | .parameter i => m.params.inlet? i
  | .blockParameter i => m.block.bind fun b => b.params.inlet? i
  | .blockResult => m.block.map Block.result
  | .result => some m.result

/-- Whether the keywords stand in ascending order, each once. -/
structure IsSorted (m : Signature) : Prop where
  params : m.params.IsSorted
  block : ∀ b, m.block = some b → b.params.IsSorted

section Map

variable (f : Ty → Ty) (m : Signature)

theorem at?_mapTypes (s : Spot) : (m.mapTypes f).at? s = (m.at? s).map f := by
  cases s with
  | parameter i => exact Params.inlet?_map f m.params i
  | blockParameter i =>
      cases hb : m.block with
      | none => simp [at?, mapTypes, hb]
      | some b => simp [at?, mapTypes, hb, Block.mapTypes, Params.inlet?_map]
  | blockResult => cases hb : m.block <;> simp [at?, mapTypes, hb, Block.mapTypes]
  | result => rfl

theorem at?_instantiate (r : Substitution) (s : Spot) :
    (m.instantiate r).at? s = (m.at? s).map (Ty.subst r) := at?_mapTypes (Ty.subst r) m s

theorem IsSorted.instantiate {m : Signature} (h : m.IsSorted) (r : Substitution) :
    (m.instantiate r).IsSorted where
  params := Params.isSorted_map _ h.params
  block b hb := by
    obtain ⟨c, hc, rfl⟩ := Option.map_eq_some_iff.mp hb
    exact Params.isSorted_map _ (h.block c hc)

end Map

end Signature

section Fails

variable {fails : Constraint → Failure → Prop} {f : Failure} {name : Atom}

theorem Goal.fails_params_inlet {p q : Params Ty} (hp : p.IsSorted) (hq : q.IsSorted)
    (h : (params name p q).Fails fails f) :
    ¬p.Fits q ∧ f = ⟨.parameterMismatch name, []⟩ ∨
      ∃ i x y f', p.inlet? i = some x ∧ q.inlet? i = some y ∧ fails ⟨y, x⟩ f' ∧
        f = f'.asParameter name := by
  rcases fails_params h with ⟨hpairs, rfl⟩ | ⟨pairs, e, f', hpairs, he, hf', rfl⟩
  · refine .inl ⟨?_, rfl⟩
    rw [← Params.pairs?_ne_none_iff, not_not]
    exact hpairs
  · obtain ⟨i, _, hx, hy⟩ := (Params.mem_pairs?_iff hp hq hpairs).mp he
    exact .inr ⟨i, e.1, e.2, f', hx, hy, hf', rfl⟩

theorem Goal.fails_signature {a b : Signature} (ha : a.IsSorted) (hb : b.IsSorted)
    (h : (signature name a b).Fails fails f) :
    ¬a.params.Fits b.params ∧ f = ⟨.parameterMismatch name, []⟩ ∨
      a.block.isSome ≠ b.block.isSome ∧ f = ⟨.blockMismatch name, []⟩ ∨
      (∃ x y, a.block = some x ∧ b.block = some y ∧ ¬y.params.Fits x.params ∧
        f = ⟨.parameterMismatch name, []⟩) ∨
      ∃ s x y f', a.at? s = some x ∧ b.at? s = some y ∧ fails (s.constraint x y) f' ∧
        (f = f' ∨ f = f'.asParameter name) := by
  rcases h with h | h | h | h | h
  · rcases fails_params_inlet ha.params hb.params h with h | ⟨i, x, y, f', hx, hy, hf', hf⟩
    · exact .inl h
    · exact .inr (.inr (.inr ⟨.parameter i, x, y, f', hx, hy, hf', .inr hf⟩))
  · exact .inr (.inl (fails_blockGiven h))
  · obtain ⟨x, y, hx, hy, h | h⟩ := fails_block h
    · rcases fails_params_inlet (hb.block y hy) (ha.block x hx) h with
        ⟨hfits, hf⟩ | ⟨i, t, u, f', ht, hu, hf', hf⟩
      · exact .inr (.inr (.inl ⟨x, y, hx, hy, hfits, hf⟩))
      · refine .inr (.inr (.inr ⟨.blockParameter i, u, t, f', ?_, ?_, hf', .inr hf⟩))
        · simp [Signature.at?, hx, hu]
        · simp [Signature.at?, hy, ht]
    · refine .inr (.inr (.inr ⟨.blockResult, x.result, y.result, f, ?_, ?_, h, .inl rfl⟩))
      · simp [Signature.at?, hx]
      · simp [Signature.at?, hy]
  · exact .inr (.inr (.inr ⟨.result, a.result, b.result, f, rfl, rfl, h, .inl rfl⟩))
  · exact h.elim

end Fails

section Unify

theorem Option.map_merge_of_map {α β : Type} {f : α → α → α} {g : β → β → β} {h : α → β}
    (hfg : ∀ x y, h (f x y) = g (h x) (h y)) (x y : Option α) :
    (Option.merge f x y).map h = Option.merge g (x.map h) (y.map h) := by
  cases x <;> cases y <;> simp [hfg]

variable {a b : Signature} {s : FreshSupply}

namespace Signature

theorem at?_unify (a b : Signature) (s : FreshSupply) (spot : Spot) :
    let a' := a.freshened s
    let b' := b.freshened (s.drawAll a.typeParams).2
    (a.unify b s).1.at? spot = Option.merge Ty.or (a'.at? spot) (b'.at? spot) ∨
      (a.unify b s).1.at? spot = Option.merge Ty.or (b'.at? spot) (a'.at? spot) := by
  intro a' b'
  cases spot with
  | parameter i => exact Params.inlet?_unionWith Ty.or a'.params b'.params i
  | blockParameter i =>
      rw [at?, at?, at?, block_unify]
      cases a'.block with
      | none => cases b'.block <;> exact .inl (by simp [unifiedBlock, Block.toOptional])
      | some x =>
          cases b'.block with
          | none => exact .inl (by simp [unifiedBlock, Block.toOptional])
          | some y => exact Params.inlet?_unionWith Ty.or x.params y.params i
  | blockResult =>
      rw [at?, at?, at?, block_unify]
      cases a'.block <;> cases b'.block <;>
        exact .inl (by simp [unifiedBlock, Block.toOptional, Block.combine])
  | result => exact .inl rfl

theorem isSorted_unify (ha : a.IsSorted) (hb : b.IsSorted) : (a.unify b s).1.IsSorted := by
  have ha' := ha.instantiate (.rename a.typeParams (s.drawAll a.typeParams).1)
  have hb' := hb.instantiate
    (.rename b.typeParams ((s.drawAll a.typeParams).2.drawAll b.typeParams).1)
  refine ⟨Params.isSorted_unionWith Ty.or _ ha'.params, fun x hx => ?_⟩
  simp only [unify] at hx
  split at hx
  next y z hy hz =>
    obtain rfl := Option.some.inj hx
    exact Params.isSorted_unionWith Ty.or z.params (ha'.block y hy)
  next y hy hz =>
    obtain rfl := Option.some.inj hx
    exact ha'.block y hy
  next z hy hz =>
    obtain rfl := Option.some.inj hx
    exact hb'.block z hz
  next => cases hx

theorem isSome_block_unify :
    (a.unify b s).1.block.isSome = (a.block.isSome || b.block.isSome) := by
  cases ha : a.block <;> cases hb : b.block <;>
    simp [unify, instantiate, mapTypes, ha, hb]

theorem typeParams_unify (ha : a.typeParams = []) (hb : b.typeParams = []) :
    (a.unify b s).1.typeParams = [] := by
  simp [unify, ha, hb, FreshSupply.drawAll]

theorem fits_unify {r r' : Substitution} :
    ((a.unify b s).1.instantiate r).params.Fits (a.instantiate r').params ∧
      ((a.unify b s).1.instantiate r).params.Fits (b.instantiate r').params := by
  have hfits := Params.fits_unionWith Ty.or
    (a.params.map (Ty.subst (.rename a.typeParams (s.drawAll a.typeParams).1)))
    (b.params.map (Ty.subst
      (.rename b.typeParams ((s.drawAll a.typeParams).2.drawAll b.typeParams).1)))
  -- types do not matter for the fit, so it carries over to all instances
  have hshape : ∀ {p q : Params Ty} (f : Ty → Ty), p.Fits (q.map f) → p.Fits q := by
    intro p q f h
    rw [← Params.map_id p] at h
    exact (Params.fits_map id p f q).mp h
  exact ⟨(Params.fits_map _ _ _ _).mpr (hshape _ hfits.1),
    (Params.fits_map _ _ _ _).mpr (hshape _ hfits.2)⟩

/-- Nothing is renamed for want of type parameters, so an instance of the unified overload has at each
spot the union of what the same instances of the two overloads have there. -/
theorem at?_instantiate_unify (ha : a.typeParams = []) (hb : b.typeParams = []) {r : Substitution}
    (hr : r.IsNormal) (spot : Spot) :
    let x := (a.instantiate r).at? spot
    let y := (b.instantiate r).at? spot
    ((a.unify b s).1.instantiate r).at? spot = Option.merge Ty.or x y ∨
      ((a.unify b s).1.instantiate r).at? spot = Option.merge Ty.or y x := by
  intro x y
  have hrenamed : ∀ {m : Signature} (hm : m.typeParams = []) (s : FreshSupply),
      ((m.freshened s).at? spot).map (Ty.subst r) = (m.instantiate r).at? spot := by
    intro m hm s
    rw [freshened, at?_instantiate, at?_instantiate, Option.map_map]
    refine Option.map_congr fun t _ => ?_
    rw [Function.comp_apply, Ty.subst_subst hr, hm]
    refine Ty.subst_congr (fun v _ => ?_) fun p => ?_
    · rw [Substitution.get?_andThen, Substitution.get?_rename_of_notMem List.not_mem_nil]
      rfl
    · rw [Substitution.placeholder?_andThen, Substitution.placeholder?_rename]
      rfl
  rw [at?_instantiate]
  rcases at?_unify a b s spot with h | h
  · left
    rw [h, Option.map_merge_of_map (Ty.subst_or hr), hrenamed ha, hrenamed hb]
  · right
    rw [h, Option.map_merge_of_map (Ty.subst_or hr), hrenamed ha, hrenamed hb]

end Signature

end Unify

end Subtyping
