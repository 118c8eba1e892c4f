import Subtyping.Proofs.Occurrence
import Subtyping.Proofs.Relabel.Ty
import Subtyping.Proofs.Ty.Gather

/-!
# Substitutions one after another

A substitution with normal images after any other is one substitution (`subst_subst`), whatever it is
made of, and for parameter lists and blocks as well (`subst_subst_of_composes`). It need not be so when
its images are not normal: a type that has become one of two equal members stands as it is, while one
that was put in afterwards is put together anew.
-/

namespace Subtyping

namespace Substitution

/-- Whether all images are normal. -/
structure IsNormal (s : Substitution) : Prop where
  vars : ∀ v t, s.get? v = some t → t.IsNormal
  placeholders : ∀ p t, s.placeholder? p = some t → t.IsNormal

/-- The substitution that does what one and then another do. -/
def andThen (s r : Substitution) : Substitution where
  vars := Assoc.ofFirsts (Assoc.mapValues (Ty.subst r) s.vars ++ r.vars)
  self := (s.self.map (Ty.subst r)).or r.self
  inst := (s.inst.map (Ty.subst r)).or r.inst
  singleton := (s.singleton.map (Ty.subst r)).or r.singleton

theorem get?_andThen (s r : Substitution) (v : TypeVar) :
    (s.andThen r).get? v = ((s.get? v).map (Ty.subst r)).or (r.get? v) := by
  rw [get?, andThen, Assoc.get?_ofFirsts, Assoc.get?_append, Assoc.get?_mapValues]
  rfl

theorem placeholder?_andThen (s r : Substitution) (p : Placeholder) :
    (s.andThen r).placeholder? p = ((s.placeholder? p).map (Ty.subst r)).or (r.placeholder? p) := by
  cases p <;> rfl

theorem placeholder?_except (s : Substitution) (vs : List TypeVar) (p : Placeholder) :
    (s.except vs).placeholder? p = s.placeholder? p := by
  cases p <;> rfl

theorem image?_of_isOpen_eq_false (s : Substitution) {t : Ty} (h : t.isOpen = false) :
    s.image? t = none := by
  cases t <;> first | rfl | cases h

end Substitution

namespace Ty

variable {s r : Substitution} {t : Ty}

theorem subst_of_isOpen_eq_false (s : Substitution) (h : t.isOpen = false) :
    t.subst s = t.mapParts (Ty.subst s) := by
  rw [subst_eq, s.image?_of_isOpen_eq_false h, Option.getD_none]

theorem subst_var (s : Substitution) (v : TypeVar) : (var v).subst s = (s.get? v).getD (var v) :=
  subst_eq s (var v)

theorem subst_placeholder (s : Substitution) (p : Placeholder) :
    (placeholder p).subst s = (s.placeholder? p).getD (placeholder p) :=
  subst_eq s (placeholder p)

theorem induct_open {P : Ty → Prop} (hvar : ∀ v, P (var v)) (hplaceholder : ∀ p, P (placeholder p))
    (hparts : ∀ t, t.isOpen = false → (∀ u ∈ t.children, P u) → P t) (t : Ty) : P t := by
  induction t using Ty.induct with
  | step t ih =>
      cases t with
      | var v => exact hvar v
      | placeholder p => exact hplaceholder p
      | _ => exact hparts _ rfl ih

theorem subst_relabel {ρ : TypeVar → TypeVar}
    (hvars : ∀ v ∈ t.vars, (var (ρ v)).subst r = (var v).subst s)
    (hplaceholders : ∀ p, (placeholder p).subst r = (placeholder p).subst s) :
    (t.relabel ρ).subst r = t.subst s := by
  induction t using induct_open with
  | hvar v => exact hvars v (List.mem_singleton_self v)
  | hplaceholder p => exact hplaceholders p
  | hparts t ht ih =>
      have hopen : (t.relabel ρ).isOpen = false := by
        cases t with
        | var v => cases ht
        | placeholder p => cases ht
        | _ => simp [isOpen]
      rw [subst_of_isOpen_eq_false r hopen, subst_of_isOpen_eq_false s ht,
        mapParts_of_relabel _ (isVar_of_isOpen_eq_false ht)]
      apply mapParts_congr
      intro u hu
      apply ih u hu
      intro v hv
      exact hvars v (mem_vars_of_mem_children hu hv)

theorem subst_agree (hvars : ∀ v ∈ t.vars, (var v).subst s = (var v).subst r)
    (hplaceholders : ∀ p, (placeholder p).subst s = (placeholder p).subst r) :
    t.subst s = t.subst r := by
  have hself : t.relabel id = t := relabel_eq_self fun _ _ => rfl
  have hrelabel := subst_relabel (ρ := id) hvars hplaceholders
  rwa [hself] at hrelabel

theorem subst_congr (hvars : ∀ v ∈ t.vars, s.get? v = r.get? v)
    (hplaceholders : ∀ p, s.placeholder? p = r.placeholder? p) : t.subst s = t.subst r := by
  apply subst_agree
  · intro v hv
    rw [subst_var, subst_var, hvars v hv]
  · intro p
    rw [subst_placeholder, subst_placeholder, hplaceholders p]

/-- What holds of a type put together anew if it holds of the parts holds of a substituted type if it
holds of what becomes of variables and placeholders. -/
theorem subst_induct {P : Ty → Prop} (hvars : ∀ v ∈ t.vars, P ((var v).subst s))
    (hplaceholders : ∀ p, P ((placeholder p).subst s))
    (hparts : ∀ u : Ty, u.isOpen = false → (∀ w ∈ u.children, P (w.subst s)) →
      P (u.mapParts (Ty.subst s))) : P (t.subst s) := by
  induction t using induct_open with
  | hvar v => exact hvars v (List.mem_singleton_self v)
  | hplaceholder p => exact hplaceholders p
  | hparts t ht ih =>
      rw [subst_of_isOpen_eq_false s ht]
      apply hparts t ht
      intro u hu
      apply ih u hu
      intro v hv
      exact hvars v (mem_vars_of_mem_children hu hv)

theorem Hereditary.subst {P : Ty → Prop} (hP : Hereditary P)
    (hvars : ∀ v ∈ t.vars, P ((var v).subst s))
    (hplaceholders : ∀ p, P ((placeholder p).subst s)) : P (t.subst s) := by
  apply subst_induct hvars hplaceholders
  intro u hu h
  exact hP.mapParts hu h

theorem isNormal_subst (hvars : ∀ v ∈ t.vars, ∀ u, s.get? v = some u → u.IsNormal)
    (hplaceholders : ∀ p u, s.placeholder? p = some u → u.IsNormal) : (t.subst s).IsNormal := by
  apply subst_induct
  · intro v hvt
    rw [subst_var]
    cases hv : s.get? v with
    | some u => exact hvars v hvt u hv
    | none => exact isNormal_var v
  · intro p
    rw [subst_placeholder]
    cases hp : s.placeholder? p with
    | some u => exact hplaceholders p u hp
    | none => exact isNormal_placeholder p
  · exact fun _ _ h => isNormal_mapParts h

theorem subst_eq_self (ht : t.IsNormal) (hvars : ∀ v ∈ t.vars, s.get? v = none)
    (hplaceholders : ∀ p, s.placeholder? p = none) : t.subst s = t := by
  induction t using induct_open with
  | hvar v => rw [subst_var, hvars v (List.mem_singleton_self v), Option.getD_none]
  | hplaceholder p => rw [subst_placeholder, hplaceholders p, Option.getD_none]
  | hparts t hopen ih =>
      rw [subst_of_isOpen_eq_false s hopen]
      apply mapParts_eq_self ht
      intro u hu
      apply ih u hu (ht.of_mem_children hu)
      intro v hv
      exact hvars v (mem_vars_of_mem_children hu hv)

end Ty

namespace Substitution

theorem IsNormal.subst {r : Substitution} (hr : r.IsNormal) (t : Ty) : (t.subst r).IsNormal := by
  apply Ty.isNormal_subst
  · exact fun v _ => hr.vars v
  · exact hr.placeholders

theorem isNormal_pairing {vs : List TypeVar} {ts : List Ty} (h : ∀ t ∈ ts, t.IsNormal) :
    (pairing vs ts).IsNormal where
  vars _ _ ht := h _ (mem_of_get?_pairing ht).2
  placeholders p _ hp := by cases p <;> cases hp

theorem IsNormal.except {s : Substitution} (hs : s.IsNormal) (vs : List TypeVar) :
    (s.except vs).IsNormal where
  vars v t ht := by
    rw [get?_except] at ht
    obtain ⟨_, ht⟩ := Option.ite_none_left_eq_some.mp ht
    exact hs.vars v t ht
  placeholders p t ht := by
    rw [placeholder?_except] at ht
    exact hs.placeholders p t ht

theorem IsNormal.andThen {r : Substitution} (hr : r.IsNormal) (s : Substitution) :
    (s.andThen r).IsNormal where
  vars v t ht := by
    rw [get?_andThen, Option.or_eq_some_iff] at ht
    rcases ht with ht | ⟨_, ht⟩
    · obtain ⟨u, _, rfl⟩ := Option.map_eq_some_iff.mp ht
      exact hr.subst u
    · exact hr.vars v t ht
  placeholders p t ht := by
    rw [placeholder?_andThen, Option.or_eq_some_iff] at ht
    rcases ht with ht | ⟨_, ht⟩
    · obtain ⟨u, _, rfl⟩ := Option.map_eq_some_iff.mp ht
      exact hr.subst u
    · exact hr.placeholders p t ht

end Substitution

theorem Ty.subst_or {r : Substitution} (hr : r.IsNormal) (t u : Ty) :
    (t.or u).subst r = (t.subst r).or (u.subst r) := by
  have hor : t.or u = (Ty.union [t, u]).mapParts id := rfl
  rw [hor, map_mapParts (F := Ty.subst r) (fun _ => subst_of_isOpen_eq_false r) hr.subst id rfl]
  rfl

theorem Ty.subst_and {r : Substitution} (hr : r.IsNormal) (t u : Ty) :
    (t.and u).subst r = (t.subst r).and (u.subst r) := by
  have hand : t.and u = (Ty.inter [t, u]).mapParts id := rfl
  rw [hand, map_mapParts (F := Ty.subst r) (fun _ => subst_of_isOpen_eq_false r) hr.subst id rfl]
  rfl

/-- A substitution with normal images after another is one substitution. -/
theorem Ty.subst_subst {r : Substitution} (hr : r.IsNormal) (s : Substitution) (t : Ty) :
    (t.subst s).subst r = t.subst (s.andThen r) := by
  induction t using induct_open with
  | hvar v =>
      rw [subst_var, subst_var, s.get?_andThen]
      cases s.get? v with
      | some u => rfl
      | none => exact subst_var r v
  | hplaceholder p =>
      rw [subst_placeholder, subst_placeholder, s.placeholder?_andThen]
      cases s.placeholder? p with
      | some u => rfl
      | none => exact subst_placeholder r p
  | hparts t ht ih =>
      rw [subst_of_isOpen_eq_false s ht, subst_of_isOpen_eq_false _ ht,
        map_mapParts (fun u => subst_of_isOpen_eq_false r) hr.subst _ ht]
      exact mapParts_congr ih

namespace Substitution

/-- Whether a substitution does at once what one and then another do. -/
structure Composes (q s r : Substitution) : Prop where
  vars : ∀ v, q.get? v = ((s.get? v).map (Ty.subst r)).or (r.get? v)
  placeholders : ∀ p, q.placeholder? p = ((s.placeholder? p).map (Ty.subst r)).or (r.placeholder? p)

theorem composes_andThen (s r : Substitution) : (s.andThen r).Composes s r where
  vars := s.get?_andThen r
  placeholders := s.placeholder?_andThen r

theorem Composes.subst_subst {q s r : Substitution} (h : q.Composes s r) (hr : r.IsNormal) (t : Ty) :
    (t.subst s).subst r = t.subst q := by
  rw [Ty.subst_subst hr]
  apply Ty.subst_congr
  · intro v _
    rw [get?_andThen, h.vars]
  · intro p
    rw [placeholder?_andThen, h.placeholders]

end Substitution

theorem Params.subst_subst {q s r : Substitution}
    (h : ∀ t : Ty, (t.subst s).subst r = t.subst q) (p : Params Ty) :
    (p.subst s).subst r = p.subst q := by
  rw [subst, subst, map_map]
  exact map_congr fun t _ => h t

theorem Block.subst_subst {q s r : Substitution} (h : ∀ t : Ty, (t.subst s).subst r = t.subst q)
    (b : Block) : (b.subst s).subst r = b.subst q := by
  have hparams := Params.subst_subst h b.params
  rw [Params.subst, Params.subst, Params.subst] at hparams
  rw [subst, subst, subst, mapTypes, mapTypes, mapTypes, hparams, h]

/-- Two substitutions one after another are one substitution, on types as well as on parameter lists
and blocks, if the images of the second are normal. Neither the images of the first nor the type need
be. -/
theorem subst_subst_of_composes {q s r : Substitution} (hr : r.IsNormal) (h : q.Composes s r) :
    (∀ t : Ty, (t.subst s).subst r = t.subst q) ∧
      (∀ p : Params Ty, (p.subst s).subst r = p.subst q) ∧
      ∀ b : Block, (b.subst s).subst r = b.subst q := by
  have htypes : ∀ t : Ty, (t.subst s).subst r = t.subst q := h.subst_subst hr
  refine ⟨htypes, ?_, ?_⟩
  · exact Params.subst_subst htypes
  · exact Block.subst_subst htypes

/-- Two members become equal with the first substitution and one image with the second. -/
theorem subst_subst_of_composes_merged :
    (Substitution.pairing [⟨⟨2⟩, 0⟩] [.nil]).IsNormal ∧
      (Substitution.andThen (.pairing [⟨⟨1⟩, 0⟩] [.var ⟨⟨2⟩, 0⟩])
        (.pairing [⟨⟨2⟩, 0⟩] [.nil])).Composes (.pairing [⟨⟨1⟩, 0⟩] [.var ⟨⟨2⟩, 0⟩])
        (.pairing [⟨⟨2⟩, 0⟩] [.nil]) ∧
      ((Ty.union [.var ⟨⟨1⟩, 0⟩, .var ⟨⟨2⟩, 0⟩, .bool]).subst
          (.pairing [⟨⟨1⟩, 0⟩] [.var ⟨⟨2⟩, 0⟩])).subst (.pairing [⟨⟨2⟩, 0⟩] [.nil]) =
        (Ty.union [.var ⟨⟨1⟩, 0⟩, .var ⟨⟨2⟩, 0⟩, .bool]).subst
          (.andThen (.pairing [⟨⟨1⟩, 0⟩] [.var ⟨⟨2⟩, 0⟩]) (.pairing [⟨⟨2⟩, 0⟩] [.nil])) := by
  have hnil : ∀ t ∈ [Ty.nil], t.IsNormal := List.forall_mem_singleton.mpr Ty.isNormal_nil
  have hr : (Substitution.pairing [⟨⟨2⟩, 0⟩] [.nil]).IsNormal := Substitution.isNormal_pairing hnil
  have hcomposes := Substitution.composes_andThen (.pairing [⟨⟨1⟩, 0⟩] [.var ⟨⟨2⟩, 0⟩])
    (.pairing [⟨⟨2⟩, 0⟩] [.nil])
  exact ⟨hr, hcomposes, (subst_subst_of_composes hr hcomposes).1 _⟩

-- A second image that is not normal stays as it is for the one member left, but two are put together.
example : ((Ty.union [.var ⟨⟨1⟩, 0⟩, .var ⟨⟨2⟩, 0⟩]).subst
      (.pairing [⟨⟨1⟩, 0⟩] [.var ⟨⟨2⟩, 0⟩])).subst (.pairing [⟨⟨2⟩, 0⟩] [.union [.nil, .nil]]) ≠
    (Ty.union [.var ⟨⟨1⟩, 0⟩, .var ⟨⟨2⟩, 0⟩]).subst
      (.andThen (.pairing [⟨⟨1⟩, 0⟩] [.var ⟨⟨2⟩, 0⟩])
        (.pairing [⟨⟨2⟩, 0⟩] [.union [.nil, .nil]])) := by
  decide +kernel

end Subtyping
