import Subtyping.Goal.Rules
import Subtyping.Proofs.Ty.Gather

/-!
# Where variables come from

A variable of a substituted type was in the type and stayed, or came with an image
(`Ty.mem_vars_subst`). An image of the binding of a template is an argument or one of its self types
(`Template.hasInImage_binding`).
-/

namespace Subtyping

theorem Ty.hereditary_notMem_vars (v : TypeVar) : Hereditary fun t => v ∉ t.vars := by
  intro t ht
  simp only [vars_of_isVar_eq_false (isVar_of_isOpen_eq_false ht), List.mem_flatMap, not_exists,
    not_and]

theorem Ty.mem_vars_mapParts {f : Ty → Ty} {t : Ty} (ht : t.isOpen = false) {v : TypeVar}
    (h : v ∈ (t.mapParts f).vars) : ∃ u ∈ t.children, v ∈ (f u).vars := by
  refine Classical.byContradiction fun hnone => ?_
  apply (hereditary_notMem_vars v).mapParts ht _ h
  exact fun u hu hv => hnone ⟨u, hu, hv⟩

/-- How a variable gets into a type with these variables by a substitution: it stays, or it comes
with the image of a variable or of a placeholder. -/
inductive Substitution.Brings (s : Substitution) (vs : List TypeVar) (v : TypeVar) : Prop
  | stays (hv : v ∈ vs) (hs : s.get? v = none)
  | image {w : TypeVar} {t : Ty} (hw : w ∈ vs) (hs : s.get? w = some t) (hv : v ∈ t.vars)
  | placeholder {p : Placeholder} {t : Ty} (hs : s.placeholder? p = some t) (hv : v ∈ t.vars)

theorem Substitution.Brings.mono {s : Substitution} {vs ws : List TypeVar} {v : TypeVar}
    (h : s.Brings vs v) (hsub : ∀ w ∈ vs, w ∈ ws) : s.Brings ws v := by
  cases h with
  | stays hv hs => exact .stays (hsub v hv) hs
  | image hw hs hv => exact .image (hsub _ hw) hs hv
  | placeholder hs hv => exact .placeholder hs hv

theorem Ty.mem_vars_subst {s : Substitution} {t : Ty} {v : TypeVar} (h : v ∈ (t.subst s).vars) :
    s.Brings t.vars v := by
  induction t using Ty.induct with
  | step t ih =>
      have hparts : t.isOpen = false → s.image? t = none → s.Brings t.vars v := by
        intro ht hs
        rw [subst_eq, hs] at h
        obtain ⟨u, hu, hv⟩ := mem_vars_mapParts ht h
        exact (ih u hu hv).mono fun w hw => mem_vars_of_mem_children hu hw
      cases t with
      | var w =>
          cases hs : s.get? w with
          | some u =>
              rw [subst_eq, Substitution.image?, hs] at h
              exact .image (List.mem_singleton_self w) hs h
          | none =>
              rw [subst_eq, Substitution.image?, hs] at h
              have hv : v = w := List.mem_singleton.mp h
              rw [hv]
              exact .stays (List.mem_singleton_self w) hs
      | placeholder p =>
          cases hs : s.placeholder? p with
          | some u =>
              rw [subst_eq, Substitution.image?, hs] at h
              exact .placeholder hs h
          | none =>
              rw [subst_eq, Substitution.image?, hs] at h
              exact absurd h List.not_mem_nil
      | _ => exact hparts rfl rfl

/-- The variables that a signature mentions or binds. -/
def Signature.vars (m : Signature) : List TypeVar := m.typeParams ++ m.types.flatMap Ty.vars

/-- The variables that a template mentions or binds. -/
def Template.vars (t : Template) : List TypeVar :=
  t.typeParams ++ t.methods.flatMap fun m => m.overloads.flatMap Signature.vars

/-- The variables that the templates of a store mention or bind. -/
def Store.vars (s : Store) : List TypeVar := s.templates.flatMap fun e => e.2.vars

/-- The variables that a constraint mentions. -/
def Constraint.vars (c : Constraint) : List TypeVar := c.sub.vars ++ c.sup.vars

/-- The variables that come with the images of a substitution. -/
def Substitution.HasInImage (s : Substitution) (v : TypeVar) : Prop :=
  (∃ w t, s.get? w = some t ∧ v ∈ t.vars) ∨ ∃ p t, s.placeholder? p = some t ∧ v ∈ t.vars

theorem Substitution.Brings.stays_or_hasInImage {s : Substitution} {vs : List TypeVar} {v : TypeVar}
    (h : s.Brings vs v) : (v ∈ vs ∧ s.get? v = none) ∨ s.HasInImage v := by
  cases h with
  | stays hv hs => exact .inl ⟨hv, hs⟩
  | image _ hs hv => exact .inr (.inl ⟨_, _, hs, hv⟩)
  | placeholder hs hv => exact .inr (.inr ⟨_, _, hs, hv⟩)

namespace Signature

theorem mem_vars_of_mem_types {m : Signature} {t : Ty} (ht : t ∈ m.types) {v : TypeVar}
    (hv : v ∈ t.vars) : v ∈ m.vars := by
  apply List.mem_append_right
  exact List.mem_flatMap.mpr ⟨t, ht, hv⟩

end Signature

namespace Template

variable {t : Template} {self inst : Ty} {args : List Ty} {singleton : Option Ty}

theorem mem_vars_of_mem_overloads {m : Method} (hm : m ∈ t.methods) {o : Signature}
    (ho : o ∈ m.overloads) {v : TypeVar} (hv : v ∈ o.vars) : v ∈ t.vars := by
  have hmethod : v ∈ m.overloads.flatMap Signature.vars := List.mem_flatMap.mpr ⟨o, ho, hv⟩
  apply List.mem_append_right
  exact List.mem_flatMap.mpr ⟨m, hm, hmethod⟩

theorem mem_of_get?_binding {v : TypeVar} {u : Ty}
    (h : (t.binding self args inst singleton).get? v = some u) : u ∈ args ∨ u = .any := by
  have hmem : u ∈ args.rightpad t.typeParams.length .any := (Substitution.mem_of_get?_pairing h).2
  rw [List.rightpad, List.mem_append] at hmem
  exact hmem.imp_right List.eq_of_mem_replicate

theorem mem_of_placeholder?_binding {p : Placeholder} {u : Ty}
    (h : (t.binding self args inst singleton).placeholder? p = some u) :
    u ∈ self :: inst :: singleton.toList := by
  cases p with
  | self =>
      obtain rfl : self = u := Option.some.inj h
      exact List.mem_cons_self
  | inst =>
      obtain rfl : inst = u := Option.some.inj h
      exact List.mem_cons_of_mem _ List.mem_cons_self
  | singleton =>
      obtain rfl : singleton = some u := h
      exact List.mem_cons_of_mem _ (List.mem_cons_of_mem _ (List.mem_singleton_self u))

theorem hasInImage_binding {v : TypeVar} (h : (t.binding self args inst singleton).HasInImage v) :
    ∃ u ∈ args ++ self :: inst :: singleton.toList, v ∈ u.vars := by
  rcases h with ⟨w, u, hw, hu⟩ | ⟨p, u, hp, hu⟩
  · rcases mem_of_get?_binding hw with hmem | rfl
    · exact ⟨u, List.mem_append_left _ hmem, hu⟩
    · exact absurd hu List.not_mem_nil
  · exact ⟨u, List.mem_append_right _ (mem_of_placeholder?_binding hp), hu⟩

end Template

end Subtyping
