import Subtyping.Interface
import Subtyping.Proofs.Params.Normal
import Subtyping.Proofs.Signature.Capture
import Subtyping.Proofs.Signature.Types

/-!
# Signatures of normal types

Types that are equal up to normal form should be equal, or a check would not find what it has
remembered of them. Whatever is made of normal types, parameter lists, blocks, signatures and
templates has normal types only (`isNormal_operations`).
-/

namespace Subtyping

/-- Whether all types of a block are normal. -/
def Block.IsNormal : Block → Prop := Block.All Ty.IsNormal

namespace Signature

variable {s : Substitution} {a b m r : Signature} {supply : FreshSupply}

/-- Whether all types of a signature are normal. -/
def IsNormal : Signature → Prop := All Ty.IsNormal

theorem isNormal_instantiate (hs : s.IsNormal) (m : Signature) : (m.instantiate s).IsNormal := by
  apply all_mapTypes
  intro t _
  exact hs.subst t

theorem isNormal_subst (hs : s.IsNormal) (hm : m.IsNormal) : (m.subst s).IsNormal := by
  unfold subst
  split
  next => exact hm
  next => exact isNormal_instantiate (hs.except m.typeParams) m

theorem isNormal_separated (hb : b.IsNormal) : (separated a b supply).IsNormal := by
  unfold separated separate
  dsimp only
  split
  next => exact hb
  next => exact isNormal_instantiate (Substitution.isNormal_rename _ _) b

theorem isNormal_unify (a b : Signature) (supply : FreshSupply) :
    (a.unify b supply).1.IsNormal := by
  -- all types come of a substitution, so the overloads need not be normal
  have hrenamed : ∀ vs ws (m : Signature), (m.instantiate (.rename vs ws)).IsNormal :=
    fun vs ws m => isNormal_instantiate (Substitution.isNormal_rename vs ws) m
  exact all_unify Ty.carriesOver_isNormal (hrenamed _ _ a) (hrenamed _ _ b)

theorem isNormal_join? (ha : a.IsNormal) (hb : b.IsNormal) (h : (a.join? b supply).1 = some r) :
    r.IsNormal := all_join? Ty.carriesOver_isNormal ha (isNormal_separated hb) h

theorem isNormal_meet? (ha : a.IsNormal) (hb : b.IsNormal) (h : (a.meet? b supply).1 = some r) :
    r.IsNormal := all_meet? Ty.carriesOver_isNormal ha (isNormal_separated hb) h

end Signature

/-! ## Templates -/

/-- Whether all overloads of all methods are normal. -/
def Method.IsNormal (m : Method) : Prop := ∀ o ∈ m.overloads, o.IsNormal

namespace Template

variable {t : Template} {self inst : Ty} {args : List Ty} {singleton : Option Ty}

theorem isNormal_binding (hself : self.IsNormal) (hargs : ∀ u ∈ args, u.IsNormal)
    (hinst : inst.IsNormal) (hsingleton : ∀ u ∈ singleton, u.IsNormal) :
    (t.binding self args inst singleton).IsNormal where
  vars v u hu := by
    rcases mem_of_get?_binding hu with hmem | rfl
    · exact hargs u hmem
    · exact Ty.isNormal_any
  placeholders p u hu := by
    cases p with
    | self => exact Option.some.inj hu ▸ hself
    | inst => exact Option.some.inj hu ▸ hinst
    | singleton => exact hsingleton u hu

theorem isNormal_instantiate (ht : ∀ m ∈ t.methods, m.IsNormal) (hself : self.IsNormal)
    (hargs : ∀ u ∈ args, u.IsNormal) (hinst : inst.IsNormal)
    (hsingleton : ∀ u ∈ singleton, u.IsNormal) :
    ∀ m ∈ (t.instantiate self args inst singleton).methods, m.IsNormal := by
  intro m hm o ho
  obtain ⟨n, hn, rfl⟩ := List.mem_map.mp hm
  obtain ⟨p, hp, rfl⟩ := List.mem_map.mp ho
  exact Signature.isNormal_subst (isNormal_binding hself hargs hinst hsingleton) (ht n hn p hp)

end Template

/-- Everything that is made of normal types has normal types only: unions and intersections of them,
types, parameter lists, blocks and signatures with their types changed by a function that keeps types
normal or by a substitution with normal images, merged lists and blocks, combined signatures, and the
method table of a template. -/
theorem isNormal_operations {s : Substitution} (hs : s.IsNormal) {f : Ty → Ty}
    (hf : ∀ t : Ty, t.IsNormal → (f t).IsNormal) {ts : List Ty} (hts : ∀ t ∈ ts, t.IsNormal)
    {t : Ty} (ht : t.IsNormal) {p q : Params Ty} (hp : p.IsNormal) (hq : q.IsNormal) {b c : Block}
    (hb : b.IsNormal) (hc : c.IsNormal) {m n : Signature} (hm : m.IsNormal) (hn : n.IsNormal)
    (supply : FreshSupply) {template : Template} (htemplate : ∀ x ∈ template.methods, x.IsNormal)
    {self inst : Ty} (hself : self.IsNormal) (hinst : inst.IsNormal) {args : List Ty}
    (hargs : ∀ u ∈ args, u.IsNormal) {singleton : Option Ty}
    (hsingleton : ∀ u ∈ singleton, u.IsNormal) :
    ((Ty.unionOf ts).IsNormal ∧ (Ty.interOf ts).IsNormal ∧ (t.subst s).IsNormal ∧
        (t.mapParts f).IsNormal) ∧
      ((p.subst s).IsNormal ∧ (p.map f).IsNormal ∧ (p.union q).IsNormal ∧
        ∀ r, p.inter? q = some r → r.IsNormal) ∧
      ((b.subst s).IsNormal ∧ (b.mapTypes f).IsNormal ∧ (b.combine c).IsNormal) ∧
      ((m.subst s).IsNormal ∧ (m.instantiate s).IsNormal ∧ (m.mapTypes f).IsNormal ∧
        (m.unify n supply).1.IsNormal ∧
        ∀ r, (m.join? n supply).1 = some r ∨ (m.meet? n supply).1 = some r → r.IsNormal) ∧
      ∀ x ∈ (template.instantiate self args inst singleton).methods, x.IsNormal := by
  refine ⟨⟨Ty.isNormal_unionOf hts, Ty.isNormal_interOf hts, hs.subst t, ?_⟩, ⟨?_, ?_, ?_, ?_⟩,
    ⟨?_, ?_, ?_⟩, ⟨?_, ?_, ?_, ?_, ?_⟩, ?_⟩
  · exact Ty.isNormal_mapParts fun u hu => hf u (ht.of_mem_children hu)
  · exact Params.isNormal_subst hs p
  · exact Params.all_map fun u hu => hf u (hp u hu)
  · exact Params.isNormal_union hp hq
  · exact fun r hr => Params.isNormal_inter? hp hq hr
  · exact Block.all_mapTypes fun u _ => hs.subst u
  · exact Block.all_mapTypes fun u hu => hf u (hb u hu)
  · exact Block.all_combine Ty.carriesOver_isNormal hb hc
  · exact Signature.isNormal_subst hs hm
  · exact Signature.isNormal_instantiate hs m
  · exact Signature.all_mapTypes fun u hu => hf u (hm u hu)
  · exact Signature.isNormal_unify m n supply
  · rintro r (hr | hr)
    · exact Signature.isNormal_join? hm hn hr
    · exact Signature.isNormal_meet? hm hn hr
  · exact Template.isNormal_instantiate htemplate hself hargs hinst hsingleton

/-- A signature with a type parameter and a block, beside itself and in a template. -/
theorem isNormal_operations_itself :
    let t : Ty := .union [.var ⟨⟨1⟩, 0⟩, .nil]
    let p : Params Ty := { required := [t], restKeywords := some .bool }
    let b : Block := ⟨p, t, true⟩
    let m : Signature :=
      { typeParams := [⟨⟨1⟩, 0⟩], params := p, block := some b, result := .inter [t, .bool] }
    let template : Template := ⟨⟨2⟩, [⟨⟨1⟩, 0⟩], [⟨⟨3⟩, [m]⟩]⟩
    m.IsNormal ∧ (b.combine b).IsNormal ∧ (m.unify m {}).1.IsNormal ∧
      (∀ r, (m.join? m {}).1 = some r ∨ (m.meet? m {}).1 = some r → r.IsNormal) ∧
      ∀ x ∈ (template.instantiate .nil [.nil] .nil none).methods, x.IsNormal := by
  intro t p b m template
  have ht : t.IsNormal := Ty.isNormal_union ⟨by decide, by decide, by decide, by simp⟩
    (by simp [Ty.isNormal_var, Ty.isNormal_nil])
  have hp : p.IsNormal := by
    simp [p, Params.IsNormal, Params.All, Params.contents, Assoc.values, ht,
      Ty.isNormal_bool]
  have hb : b.IsNormal := Block.all_iff.mpr ⟨hp, ht⟩
  have hblock : ∀ x ∈ m.block, x.IsNormal := fun x hx => Option.some.inj hx ▸ hb
  have hresult : m.result.IsNormal := Ty.isNormal_inter
    ⟨by decide, by decide, by decide, by simp [t]⟩ (by simp [ht, Ty.isNormal_bool])
  have hm : m.IsNormal := Signature.all_iff.mpr ⟨hp, hblock, hresult⟩
  have hmethods : ∀ x ∈ template.methods, x.IsNormal := by
    simp [template, Method.IsNormal, hm]
  have hs : (Substitution.pairing [] []).IsNormal :=
    Substitution.isNormal_pairing fun _ ht => absurd ht List.not_mem_nil
  have hsingleton : ∀ u ∈ (none : Option Ty), u.IsNormal :=
    fun u hu => absurd hu (Option.not_mem_none u)
  have hargs : ∀ u ∈ [Ty.nil], u.IsNormal := List.forall_mem_singleton.mpr Ty.isNormal_nil
  obtain ⟨_, _, ⟨_, _, hcombine⟩, ⟨_, _, _, hunify, hboth⟩, htemplate⟩ :=
    isNormal_operations hs (fun u hu => hu) hargs ht hp hp hb hb hm hm {} hmethods
      Ty.isNormal_nil Ty.isNormal_nil hargs hsingleton
  exact ⟨hm, hcombine, hunify, hboth, htemplate⟩

end Subtyping
