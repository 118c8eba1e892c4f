import Mathlib.Data.List.Forall2
import Mathlib.Data.Set.Function
import Subtyping.Proofs.Relabel.Signature
import Subtyping.Proofs.Signature.Types
import Subtyping.Proofs.Signature.Untouched

/-!
# Templates and their instances

The type parameters of a template are bound in its overloads. So a method table has no free variable
but those that were free in the template and those of the types it was made of, it has no placeholder
left, and the names of the type parameters make no difference to it (`instantiate_hygienic`).
-/

namespace Subtyping

/-! ## Free variables -/

theorem Signature.brings_of_mem_freeVars_subst {m : Signature} {s : Substitution} {v : TypeVar}
    (h : v ∈ (m.subst s).freeVars) : s.Brings m.freeVars v := by
  unfold subst at h
  split at h
  next huntouched => exact .stays h ((untouched huntouched).2 v h)
  next =>
    obtain ⟨hv, hown⟩ := List.mem_filter.mp h
    have hown : v ∉ m.typeParams := by simpa using hown
    obtain ⟨u', hu', hv⟩ := List.mem_flatMap.mp hv
    have htypes : u' ∈ (m.instantiate (s.except m.typeParams)).types := hu'
    rw [types_instantiate] at htypes
    obtain ⟨u, hu, rfl⟩ := List.mem_map.mp htypes
    cases Ty.mem_vars_subst hv with
    | stays hvu hs =>
        rw [Substitution.get?_except, if_neg hown] at hs
        exact .stays (mem_freeVars hu hvu hown) hs
    | image hw hs hvt =>
        rw [Substitution.get?_except] at hs
        obtain ⟨hwown, hs⟩ := Option.ite_none_left_eq_some.mp hs
        exact .image (mem_freeVars hu hw hwown) hs hvt
    | placeholder hs hvt =>
        rw [Substitution.placeholder?_except] at hs
        exact .placeholder hs hvt

/-! ## Placeholders -/

/-- Whether a placeholder occurs in a type, at any depth. -/
inductive Ty.Mentions (p : Placeholder) : Ty → Prop
  | here : Mentions p (.placeholder p)
  | part {t u : Ty} (hu : u ∈ t.children) (h : Mentions p u) : Mentions p t

namespace Ty

theorem mentions_iff {p : Placeholder} {t : Ty} :
    t.Mentions p ↔ t = placeholder p ∨ ∃ u ∈ t.children, u.Mentions p := by
  constructor
  · rintro (_ | ⟨hu, h⟩)
    · exact .inl rfl
    · exact .inr ⟨_, hu, h⟩
  · rintro (rfl | ⟨u, hu, h⟩)
    · exact .here
    · exact .part hu h

theorem eq_of_mentions {p : Placeholder} {t : Ty} (ht : t.children = []) (h : t.Mentions p) :
    t = placeholder p := by
  cases h with
  | here => rfl
  | part hu _ =>
      rw [ht] at hu
      exact absurd hu List.not_mem_nil

theorem not_mentions_var (p : Placeholder) (v : TypeVar) : ¬(var v).Mentions p := by
  intro h
  cases eq_of_mentions rfl h

theorem hereditary_not_mentions (p : Placeholder) : Hereditary fun t => ¬t.Mentions p := by
  intro t ht
  have hne : t ≠ placeholder p := by
    rintro rfl
    cases ht
  simp only [mentions_iff (t := t), hne, false_or, not_exists, not_and]

theorem not_mentions_subst {s : Substitution} {p : Placeholder} (hp : s.placeholder? p ≠ none)
    (hvars : ∀ v u, s.get? v = some u → ¬u.Mentions p)
    (hplaceholders : ∀ q u, s.placeholder? q = some u → ¬u.Mentions p) (t : Ty) :
    ¬(t.subst s).Mentions p := by
  apply (hereditary_not_mentions p).subst
  · intro v _
    rw [subst_var]
    cases hv : s.get? v with
    | some u => exact hvars v u hv
    | none => exact not_mentions_var p v
  · intro q
    rw [subst_placeholder]
    cases hq : s.placeholder? q with
    | some u => exact hplaceholders q u hq
    | none =>
        intro h
        obtain rfl : q = p := placeholder.inj (eq_of_mentions rfl h)
        exact hp hq

end Ty

/-! ## Other names for the type parameters -/

/-- A signature with other names for those of the given variables that are free in it. -/
def Signature.renameFree (ρ : TypeVar → TypeVar) (vs : List TypeVar) (m : Signature) : Signature :=
  m.mapTypes (Ty.relabel fun v => if v ∈ vs ∧ v ∉ m.typeParams then ρ v else v)

/-- A template with other names for its type parameters. An overload that binds a variable of the same
name keeps it. -/
def Template.renamed (ρ : TypeVar → TypeVar) (t : Template) : Template :=
  { t with
    typeParams := t.typeParams.map ρ
    methods := t.methods.map fun m =>
      { m with overloads := m.overloads.map (Signature.renameFree ρ t.typeParams) } }

theorem Substitution.get?_pairing_map {ρ : TypeVar → TypeVar} {vs : List TypeVar} {v : TypeVar}
    (hρ : ∀ w ∈ vs, ρ v = ρ w → v = w) (ts : List Ty) :
    (pairing (vs.map ρ) ts).get? (ρ v) = (pairing vs ts).get? v := by
  have hzip : ((vs.map ρ).zip ts).reverse = (vs.zip ts).reverse.map fun e => (ρ e.1, id e.2) := by
    rw [List.zip_map_left, ← List.map_reverse]
    rfl
  have hkeys : ∀ w ∈ Assoc.keys (vs.zip ts).reverse, ρ v = ρ w → v = w := by
    intro w hw
    obtain ⟨e, he, rfl⟩ := List.mem_map.mp hw
    exact hρ e.1 (List.of_mem_zip (List.mem_reverse.mp he)).1
  rw [get?_pairing, get?_pairing, hzip, Assoc.get?_map_of_eq id hkeys, Option.map_id_fun, id]

namespace Signature

variable {ρ : TypeVar → TypeVar} {vs : List TypeVar} {s r : Substitution} {m : Signature}

theorem subst_renameFree {p : Placeholder} (hp : s.placeholder? p ≠ none)
    (hplaceholders : ∀ q, r.placeholder? q = s.placeholder? q)
    (hbound : ∀ v ∈ vs, s.get? v ≠ none ∧ r.get? (ρ v) = s.get? v ∧ ρ v ∉ m.typeParams)
    (hfree : ∀ v ∈ m.freeVars, v ∉ vs → r.get? v = s.get? v) :
    (m.renameFree ρ vs).subst r = m.subst s := by
  have hrp : r.placeholder? p ≠ none := by rwa [hplaceholders]
  -- a renamed variable is replaced by what the variable itself is replaced by
  have hmap : (m.renameFree ρ vs).mapTypes (Ty.subst (r.except m.typeParams)) =
      m.mapTypes (Ty.subst (s.except m.typeParams)) := by
    rw [renameFree, mapTypes_mapTypes]
    apply mapTypes_congr
    intro t ht
    apply Ty.subst_relabel
    · intro v hv
      rw [Ty.subst_var, Ty.subst_var]
      by_cases hown : v ∈ m.typeParams
      · rw [if_neg fun h => h.2 hown, Substitution.get?_except, Substitution.get?_except,
          if_pos hown, if_pos hown]
      · by_cases hvs : v ∈ vs
        · obtain ⟨hsome, hget, hnew⟩ := hbound v hvs
          obtain ⟨u, hu⟩ := Option.ne_none_iff_exists'.mp hsome
          rw [if_pos ⟨hvs, hown⟩, Substitution.get?_except, Substitution.get?_except, if_neg hnew,
            if_neg hown, hget, hu]
          rfl
        · rw [if_neg fun h => hvs h.1, Substitution.get?_except, Substitution.get?_except,
            if_neg hown, if_neg hown, hfree v (mem_freeVars ht hv hown) hvs]
    · intro q
      rw [Ty.subst_placeholder, Ty.subst_placeholder, Substitution.placeholder?_except,
        Substitution.placeholder?_except, hplaceholders]
  have hown : (m.renameFree ρ vs).typeParams = m.typeParams := rfl
  rw [subst_of_placeholder? hrp, subst_of_placeholder? hp, instantiate, instantiate, hown, hmap]

end Signature

namespace Template

variable {t : Template} {self inst : Ty} {args : List Ty} {singleton : Option Ty}

theorem placeholder?_self_binding :
    (t.binding self args inst singleton).placeholder? .self ≠ none := Option.some_ne_none self

theorem get?_binding_ne_none {v : TypeVar} (hv : v ∈ t.typeParams) :
    (t.binding self args inst singleton).get? v ≠ none := by
  apply Substitution.get?_pairing_ne_none _ hv
  simp only [List.rightpad, List.length_append, List.length_replicate]
  omega

theorem mem_freeVars_instantiate {o : Signature} {v : TypeVar}
    (h : v ∈ (o.subst (t.binding self args inst singleton)).freeVars) :
    (v ∈ o.freeVars ∧ v ∉ t.typeParams) ∨
      ∃ u ∈ args ++ self :: inst :: singleton.toList, v ∈ u.vars := by
  rcases (Signature.brings_of_mem_freeVars_subst h).stays_or_hasInImage with ⟨hv, hs⟩ | hs
  · exact .inl ⟨hv, fun hparam => get?_binding_ne_none hparam hs⟩
  · exact .inr (hasInImage_binding hs)

theorem not_mentions_instantiate {p : Placeholder}
    (hp : (t.binding self args inst singleton).placeholder? p ≠ none)
    (hgiven : ∀ u ∈ args ++ self :: inst :: singleton.toList, ¬u.Mentions p) (o : Signature) :
    (o.subst (t.binding self args inst singleton)).All fun u => ¬u.Mentions p := by
  rw [Signature.subst_of_placeholder? hp]
  apply Signature.all_mapTypes
  intro u _
  apply Ty.not_mentions_subst
  · rwa [Substitution.placeholder?_except]
  · intro v w hw
    rw [Substitution.get?_except] at hw
    rcases mem_of_get?_binding (Option.ite_none_left_eq_some.mp hw).2 with hmem | rfl
    · exact hgiven w (List.mem_append_left _ hmem)
    · exact (Ty.hereditary_not_mentions p .any rfl).mpr nofun
  · intro q w hw
    rw [Substitution.placeholder?_except] at hw
    exact hgiven w (List.mem_append_right _ (mem_of_placeholder?_binding hw))

section Renamed

variable {ρ : TypeVar → TypeVar}

theorem get?_binding_renamed (v : TypeVar) :
    ((t.renamed ρ).binding self args inst singleton).get? v =
      (Substitution.pairing (t.typeParams.map ρ)
        (args.rightpad t.typeParams.length .any)).get? v := by
  have hlength : (t.renamed ρ).typeParams.length = t.typeParams.length := List.length_map ρ
  rw [binding, hlength]
  rfl

theorem subst_binding_renamed (hinj : Set.InjOn ρ {v | v ∈ t.typeParams})
    (hnew : ∀ v ∈ t.typeParams, ρ v ∉ t.vars) {m : Method} (hm : m ∈ t.methods) {o : Signature}
    (ho : o ∈ m.overloads) :
    (o.renameFree ρ t.typeParams).subst ((t.renamed ρ).binding self args inst singleton) =
      o.subst (t.binding self args inst singleton) := by
  apply Signature.subst_renameFree placeholder?_self_binding
  · intro p
    cases p <;> rfl
  · intro v hv
    refine ⟨get?_binding_ne_none hv, ?_, fun hown => hnew v hv ?_⟩
    · rw [get?_binding_renamed, Substitution.get?_pairing_map fun w hw h => hinj hv hw h]
      rfl
    · exact mem_vars_of_mem_overloads hm ho (List.mem_append_left _ hown)
  · intro v hv hparam
    -- a variable that is no parameter is none of the new names, since it occurs in the template
    have hoccurs : v ∈ t.vars :=
      mem_vars_of_mem_overloads hm ho (List.mem_append_right _ (List.mem_filter.mp hv).1)
    have hother : v ∉ t.typeParams.map ρ := by
      intro hv
      obtain ⟨w, hw, rfl⟩ := List.mem_map.mp hv
      exact hnew w hw hoccurs
    have hnone : (t.binding self args inst singleton).get? v = none :=
      Substitution.get?_pairing_of_notMem _ hparam
    rw [hnone, get?_binding_renamed, Substitution.get?_pairing_of_notMem _ hother]

theorem instantiate_of_renamed (hinj : Set.InjOn ρ {v | v ∈ t.typeParams})
    (hnew : ∀ v ∈ t.typeParams, ρ v ∉ t.vars) :
    (t.renamed ρ).instantiate self args inst singleton = t.instantiate self args inst singleton := by
  rw [instantiate, instantiate, renamed, List.map_map]
  refine congrArg Interface.mk (List.map_congr_left fun m hm => ?_)
  have hoverloads : (m.overloads.map (Signature.renameFree ρ t.typeParams)).map
        (Signature.subst ((t.renamed ρ).binding self args inst singleton)) =
      m.overloads.map (Signature.subst (t.binding self args inst singleton)) := by
    rw [List.map_map]
    exact List.map_congr_left fun o ho => subst_binding_renamed hinj hnew hm ho
  exact congrArg (fun os => { m with overloads := os }) hoverloads

end Renamed

/-- The type parameters of a template are bound. Every free variable of an instance was free in the
template and is none of them, or comes with one of the types that the instance is made of. If these
mention no placeholder, the instance mentions none for which it was given a type. Other names for the
type parameters, which do not occur in the template, give the same instance. -/
theorem instantiate_hygienic (t : Template) (self : Ty) (args : List Ty) (inst : Ty)
    (singleton : Option Ty) :
    List.Forall₂ (fun m n : Method => m.name = n.name ∧
        List.Forall₂ (fun o r : Signature => ∀ v ∈ r.freeVars, (v ∈ o.freeVars ∧ v ∉ t.typeParams) ∨
          ∃ u ∈ args ++ self :: inst :: singleton.toList, v ∈ u.vars) m.overloads n.overloads)
      t.methods (t.instantiate self args inst singleton).methods ∧
    ((∀ u ∈ args ++ self :: inst :: singleton.toList, ∀ p, ¬u.Mentions p) →
      ∀ m ∈ (t.instantiate self args inst singleton).methods, ∀ o ∈ m.overloads,
        o.All fun u => ¬u.Mentions .self ∧ ¬u.Mentions .inst ∧
          (singleton ≠ none → ¬u.Mentions .singleton)) ∧
    ∀ ρ : TypeVar → TypeVar, Set.InjOn ρ {v | v ∈ t.typeParams} →
      (∀ v ∈ t.typeParams, ρ v ∉ t.vars) →
      (t.renamed ρ).instantiate self args inst singleton =
        t.instantiate self args inst singleton := by
  refine ⟨?_, ?_, fun ρ => instantiate_of_renamed⟩
  · rw [instantiate, List.forall₂_map_right_iff, List.forall₂_same]
    refine fun m _ => ⟨rfl, ?_⟩
    rw [List.forall₂_map_right_iff, List.forall₂_same]
    exact fun o _ v => mem_freeVars_instantiate
  · intro hgiven m' hm' o' ho' u hu
    obtain ⟨m, _, rfl⟩ := List.mem_map.mp hm'
    obtain ⟨o, _, rfl⟩ := List.mem_map.mp ho'
    have hnone : ∀ p, (t.binding self args inst singleton).placeholder? p ≠ none → ¬u.Mentions p :=
      fun p hp => not_mentions_instantiate hp (fun w hw => hgiven w hw p) o u hu
    exact ⟨hnone .self (Option.some_ne_none self), hnone .inst (Option.some_ne_none inst),
      hnone .singleton⟩

/-- The argument mentions the type parameter, and an overload binds a variable of the same name. -/
theorem instantiate_hygienic_self_referring :
    let v : TypeVar := ⟨⟨1⟩, 0⟩
    let list : Ty → Ty := fun u => .instancesOf ⟨5⟩ [u]
    let t : Template :=
      { name := ⟨5⟩, typeParams := [v]
        methods :=
          [⟨⟨6⟩,
            [{ params := { required := [.var v] }
               result := .union [.var v, .placeholder .self, .var ⟨⟨2⟩, 0⟩] },
             { typeParams := [v], params := { rest := some (.var v) }
               result := .placeholder .singleton }]⟩] }
    let self := list (list (.var v))
    let singleton := some (Ty.classObject ⟨5⟩)
    let ρ : TypeVar → TypeVar := fun _ => ⟨⟨9⟩, 0⟩
    (∀ u ∈ [list (.var v)] ++ self :: self :: singleton.toList, ∀ p, ¬u.Mentions p) ∧
      (∀ m ∈ (t.instantiate self [list (.var v)] self singleton).methods, ∀ o ∈ m.overloads,
        o.All fun u => ¬u.Mentions .self ∧ ¬u.Mentions .inst ∧
          (singleton ≠ none → ¬u.Mentions .singleton)) ∧
      Set.InjOn ρ {w | w ∈ t.typeParams} ∧ (∀ w ∈ t.typeParams, ρ w ∉ t.vars) ∧
      t.renamed ρ ≠ t ∧
      (t.renamed ρ).instantiate self [list (.var v)] self singleton =
        t.instantiate self [list (.var v)] self singleton := by
  intro v list t self singleton ρ
  have hvar : ∀ p, ¬(Ty.var v).Mentions p := fun p => Ty.not_mentions_var p v
  have hlist : ∀ u, (∀ p, ¬u.Mentions p) → ∀ p, ¬(list u).Mentions p := fun u hu p =>
    (Ty.hereditary_not_mentions p _ rfl).mpr (List.forall_mem_singleton.mpr (hu p))
  have hgiven : ∀ u ∈ [list (.var v)] ++ self :: self :: singleton.toList, ∀ p, ¬u.Mentions p := by
    intro u hu
    simp only [singleton, Option.toList_some, List.singleton_append, List.mem_cons,
      List.not_mem_nil, or_false] at hu
    rcases hu with rfl | rfl | rfl | rfl
    · exact hlist _ hvar
    · exact hlist _ (hlist _ hvar)
    · exact hlist _ (hlist _ hvar)
    · exact fun p => (Ty.hereditary_not_mentions p _ rfl).mpr nofun
  have hinj : Set.InjOn ρ {w | w ∈ t.typeParams} := by
    intro w hw x hx _
    exact (List.mem_singleton.mp hw).trans (List.mem_singleton.mp hx).symm
  have hnew : ∀ w ∈ t.typeParams, ρ w ∉ t.vars := by decide
  have hmain := instantiate_hygienic t self [list (.var v)] self singleton
  exact ⟨hgiven, hmain.2.1 hgiven, hinj, hnew, by decide, hmain.2.2 ρ hinj hnew⟩

end Template

end Subtyping
