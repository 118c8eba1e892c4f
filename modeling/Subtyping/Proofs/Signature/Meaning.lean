import Subtyping.Proofs.Params.Combine
import Subtyping.Proofs.Signature.Types
import Subtyping.Proofs.Ty.Meaning

/-!
# What the types of combined signatures mean

Where lists or signatures are combined by intersections of their types, the type at a place has the
values that the types of the two sides have in common there, unless one of these is the unknown type
or an intersection with it. It is unknown then, whatever the other one is (`meaning_combined`).
-/

namespace Subtyping

universe u

namespace Interpretation

variable {V : Type u} (I : Interpretation V)

/-- Whether a type has the values that two types have in common, or all values if one of the two is
the unknown type or an intersection with it. -/
def Intersects (t u w : Ty) : Prop :=
  ∀ v, v ∈ I.meaning w ↔
    (v ∈ I.meaning t ∧ v ∈ I.meaning u) ∨ Ty.any ∈ t.demands ∨ Ty.any ∈ u.demands

/-- Whether each argument that a list takes goes to the intersection of what two lists pass it to. -/
def IntersectsSlots (p q r : Params Ty) : Prop :=
  ∀ a w, r.taker? a = some w →
    ∃ t u, p.taker? a = some t ∧ q.taker? a = some u ∧ I.Intersects t u w

theorem intersects_and (t u : Ty) : I.Intersects t u (t.and u) := by
  intro v
  rw [Ty.and, I.mem_interOf_iff]
  simp

theorem Intersects.symm {t u w : Ty} (h : I.Intersects t u w) : I.Intersects u t w := by
  intro v
  rw [h v, and_comm, or_comm (a := Ty.any ∈ t.demands)]

theorem intersectsSlots_inter? {p q r : Params Ty} (hr : p.inter? q = some r) :
    I.IntersectsSlots p q r := by
  obtain ⟨_, rfl⟩ := (Params.interWith?_eq_some_iff Ty.and p q r).mp hr
  intro a w hw
  rcases Params.taker?_interWith Ty.and p q a with h | h
  · rw [h] at hw
    obtain ⟨t, u, ht, hu, rfl⟩ := Option.map₂_eq_some_iff.mp hw
    exact ⟨t, u, ht, hu, I.intersects_and t u⟩
  · rw [h] at hw
    obtain ⟨u, t, hu, ht, rfl⟩ := Option.map₂_eq_some_iff.mp hw
    exact ⟨t, u, ht, hu, (I.intersects_and u t).symm⟩

/-! ## Joins and meets -/

variable {a b r : Signature} {supply : FreshSupply}

theorem intersects_join? (h : (a.join? b supply).1 = some r) :
    I.IntersectsSlots a.params (a.separated b supply).params r.params ∧
      ∀ x ∈ a.block, ∀ y ∈ (a.separated b supply).block,
        ∃ z ∈ r.block, I.Intersects x.result y.result z.result := by
  obtain ⟨params, block, hparams, hblock, rfl⟩ := Signature.exists_of_join? h
  refine ⟨I.intersectsSlots_inter? hparams, fun x hx y hy => ?_⟩
  rw [hx, hy] at hblock
  obtain rfl := Option.some.inj hblock
  exact ⟨_, rfl, I.intersects_and x.result y.result⟩

theorem intersects_meet? (h : (a.meet? b supply).1 = some r) :
    I.Intersects a.result (a.separated b supply).result r.result ∧
      ∀ x ∈ a.block, ∀ y ∈ (a.separated b supply).block,
        ∃ z ∈ r.block, I.IntersectsSlots x.params y.params z.params := by
  obtain ⟨block, hblock, rfl⟩ := Signature.exists_of_meet? h
  refine ⟨I.intersects_and _ _, fun x hx y hy => ?_⟩
  rw [hx, hy] at hblock
  obtain ⟨params, hparams, rfl⟩ := Option.map_eq_some_iff.mp hblock
  exact ⟨_, rfl, I.intersectsSlots_inter? hparams⟩

end Interpretation

/-- A union has the values of its members. An intersection has the values that its members have in
common, unless the unknown type is one of them or of those of a nested intersection, and all values
then. The same is true of the types that a merge of lists, a join and a meet intersect. -/
theorem meaning_combined {V : Type u} (I : Interpretation V) :
    (∀ ts v, v ∈ I.meaning (Ty.unionOf ts) ↔ ∃ t ∈ ts, v ∈ I.meaning t) ∧
      (∀ ts v, v ∈ I.meaning (Ty.interOf ts) ↔
        (∀ t ∈ ts, v ∈ I.meaning t) ∨ Ty.any ∈ ts.flatMap Ty.demands) ∧
      (∀ p q r, p.inter? q = some r → I.IntersectsSlots p q r) ∧
      ∀ (a b : Signature) (supply : FreshSupply) (r : Signature),
        ((a.join? b supply).1 = some r →
          I.IntersectsSlots a.params (a.separated b supply).params r.params ∧
            ∀ x ∈ a.block, ∀ y ∈ (a.separated b supply).block,
              ∃ z ∈ r.block, I.Intersects x.result y.result z.result) ∧
        ((a.meet? b supply).1 = some r →
          I.Intersects a.result (a.separated b supply).result r.result ∧
            ∀ x ∈ a.block, ∀ y ∈ (a.separated b supply).block,
              ∃ z ∈ r.block, I.IntersectsSlots x.params y.params z.params) := by
  refine ⟨fun ts v => ?_, fun ts v => ?_, fun p q r hr => ?_, fun a b supply r => ⟨?_, ?_⟩⟩
  · exact I.mem_unionOf_iff ts
  · exact I.mem_interOf_iff ts
  · exact I.intersectsSlots_inter? hr
  · exact I.intersects_join?
  · exact I.intersects_meet?

/-- A fixed slot and a block's result meet a slot for all arguments and another result. -/
theorem meaning_combined_callbacks :
    let I : Interpretation Ty := .extend fun t => {t}
    let p : Params Ty := { required := [.union [.nil, .bool]] }
    let q : Params Ty := { rest := some .bool }
    let a : Signature := { params := p, block := some ⟨p, .nil, false⟩, result := .bool }
    let b : Signature := { params := q, block := some ⟨q, .bool, false⟩, result := .bool }
    ∃ r c d, p.inter? q = some r ∧ (a.join? b {}).1 = some c ∧ (a.meet? b {}).1 = some d ∧
      I.IntersectsSlots p q r ∧
      (I.IntersectsSlots p q c.params ∧ ∃ z ∈ c.block, I.Intersects .nil .bool z.result) ∧
      I.Intersects .bool .bool d.result ∧ ∃ z ∈ d.block, I.IntersectsSlots p q z.params := by
  intro I p q a b
  obtain ⟨_, _, hinter, hcombined⟩ := meaning_combined I
  have hjoin := (hcombined a b {} _).1 rfl
  have hmeet := (hcombined a b {} _).2 rfl
  exact ⟨_, _, _, rfl, rfl, rfl, hinter p q _ rfl, ⟨hjoin.1, hjoin.2 _ rfl _ rfl⟩, hmeet.1,
    hmeet.2 _ rfl _ rfl⟩

/-- The value is no nil, but belongs to the intersection of the unknown type and nil, and to the slot
that is made of two slots of these types. -/
theorem not_meaning_combined :
    let I : Interpretation Unit := .extend fun _ => ∅
    [Ty.any, .nil] ≠ [] ∧
      ¬(() ∈ I.meaning (Ty.interOf [.any, .nil]) ↔ ∀ t ∈ [Ty.any, .nil], () ∈ I.meaning t) ∧
      Params.inter? { required := [.any] } { required := [.nil] } = some { required := [.any] } := by
  intro I
  have hinter : () ∈ I.meaning (Ty.interOf [.any, .nil]) := Set.mem_univ ()
  have hnil : () ∉ I.meaning .nil := Set.notMem_empty ()
  exact ⟨by simp, fun h => hnil (h.mp hinter .nil (by simp)), by decide⟩

end Subtyping
