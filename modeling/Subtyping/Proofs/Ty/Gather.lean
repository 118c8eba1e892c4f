import Subtyping.Ty.Rewrite

/-!
# The algebra of normal forms

Unions and intersections are put together in one way, which `gather` says once for both. What is
gathered from normal types is normal (`isNormal_mapParts`), gathering a normal type anew gives the
same type (`mapParts_eq_self`), and a function that takes types apart and gathers the images of
their parts can be applied before or after types are gathered (`Assembly.map_gather`). What a type has
from its parts and they have from it is kept when parts are gathered (`Hereditary.gather`).
-/

namespace Subtyping.Ty

/-! ## First occurrences -/

theorem distinct_filter (p : Ty → Bool) (ts : List Ty) :
    distinct (ts.filter p) = (distinct ts).filter p := by
  induction ts with
  | nil => rfl
  | cons t ts ih =>
      by_cases hp : p t = true
      · rw [List.filter_cons_of_pos hp, distinct, distinct, ih, List.filter_cons_of_pos hp]
        simp only [List.filter_filter, Bool.and_comm]
      · rw [List.filter_cons_of_neg hp, distinct, List.filter_cons_of_neg hp, ih,
          List.filter_filter]
        apply List.filter_congr
        intro u _
        by_cases hu : u = t
        · simpa [hu] using hp
        · simp [hu]

theorem distinct_append (ts us : List Ty) :
    distinct (ts ++ us) = distinct ts ++ (distinct us).filter (· ∉ ts) := by
  induction ts with
  | nil =>
      have hall : (distinct us).filter (· ∉ []) = distinct us := List.filter_eq_self.mpr (by simp)
      rw [hall]
      rfl
  | cons t ts ih =>
      rw [List.cons_append, distinct, ih, distinct, List.filter_append, List.filter_filter,
        List.cons_append]
      simp [not_or]

theorem distinct_append_congr {ts us vs : List Ty}
    (h : us.filter (· ∉ ts) = vs.filter (· ∉ ts)) : distinct (ts ++ us) = distinct (ts ++ vs) := by
  rw [distinct_append, distinct_append, ← distinct_filter, h, distinct_filter]

theorem distinct_flatMap_distinct (f : Ty → List Ty) (ts : List Ty) :
    distinct ((distinct ts).flatMap f) = distinct (ts.flatMap f) := by
  induction ts with
  | nil => rfl
  | cons t ts ih =>
      -- what comes of a further copy of `t` is dropped after what came of the first one
      have hdrop : ∀ us : List Ty, ((us.filter (· ≠ t)).flatMap f).filter (· ∉ f t) =
          (us.flatMap f).filter (· ∉ f t) := by
        intro us
        induction us with
        | nil => rfl
        | cons u us ih =>
            by_cases hu : u = t
            · simp_all
            · simp_all
      rw [distinct, List.flatMap_cons, List.flatMap_cons, distinct_append_congr (hdrop _),
        distinct_append, ih, ← distinct_append]

theorem distinct_flatMap_congr {β : Type} {f g : β → List Ty} {xs : List β}
    (h : ∀ x ∈ xs, distinct (f x) = distinct (g x)) :
    distinct (xs.flatMap f) = distinct (xs.flatMap g) := by
  induction xs with
  | nil => rfl
  | cons x xs ih =>
      have hmem : ∀ t, t ∈ f x ↔ t ∈ g x := by
        intro t
        rw [← mem_distinct, h x List.mem_cons_self, mem_distinct]
      rw [List.flatMap_cons, List.flatMap_cons, distinct_append, distinct_append,
        h x List.mem_cons_self, ih fun y hy => h y (List.mem_cons_of_mem x hy)]
      simp only [hmem]

/-! ## Putting members together -/

/-- How members are put together to a type and a type is taken apart into members. -/
structure Assembly (form : List Ty → Ty) (parts : Ty → List Ty) : Prop where
  parts_form : ∀ ts, parts (form ts) = ts
  parts_of_ne : ∀ t, (∀ ts, t ≠ form ts) → parts t = [t]
  form_ne_any : ∀ ts, form ts ≠ any
  children_form : ∀ ts, (form ts).children = ts

theorem assembly_union : Assembly union alternatives where
  parts_form _ := rfl
  parts_of_ne t h := alternatives.eq_2 t h
  form_ne_any _ h := by cases h
  children_form _ := rfl

theorem assembly_inter : Assembly inter demands where
  parts_form _ := rfl
  parts_of_ne t h := demands.eq_2 t h
  form_ne_any _ h := by cases h
  children_form _ := rfl

def gather (form : List Ty → Ty) (parts : Ty → List Ty) (ts : List Ty) : Ty :=
  collapse form (distinct (ts.flatMap parts))

theorem unionOf_eq_gather (ts : List Ty) : unionOf ts = gather union alternatives ts := rfl

theorem interOf_eq_gather (ts : List Ty) : interOf ts = gather inter demands ts := rfl

/-- Whether nothing changes when the outermost members of a type are gathered anew. -/
def IsGathered (form : List Ty → Ty) (t : Ty) : Prop :=
  ∀ ts, t = form ts → IsNormalMembers (fun u => ∀ us, u ≠ form us) ts

theorem collapse_cases {P : Ty → Prop} {form : List Ty → Ty} {ts : List Ty}
    (hany : any ∈ ts → P any) (hone : ∀ t, ts = [t] → P t) (hform : any ∉ ts → ts.length ≠ 1 → P (form ts)) :
    P (collapse form ts) := by
  unfold collapse
  split
  next h => exact hany h
  next h =>
    split
    next t => exact hone t rfl
    next hts =>
      apply hform h
      intro hlength
      obtain ⟨t, ht⟩ := List.length_eq_one_iff.mp hlength
      exact hts t ht

theorem collapse_of_any {form : List Ty → Ty} {ts : List Ty} (h : any ∈ ts) :
    collapse form ts = any := if_pos h

theorem collapse_of_normal {form : List Ty → Ty} {ts : List Ty} (hany : any ∉ ts)
    (hlength : ts.length ≠ 1) : collapse form ts = form ts := by
  apply collapse_cases (P := (· = form ts))
  · exact fun h => absurd h hany
  · rintro t rfl
    exact absurd rfl hlength
  · exact fun _ _ => rfl

theorem collapse_singleton (form : List Ty → Ty) (t : Ty) : collapse form [t] = t := by
  apply collapse_cases (P := (· = t))
  · exact List.mem_singleton.mp
  · intro u hu
    exact (List.singleton_inj.mp hu).symm
  · intro _ hlength
    exact absurd rfl hlength

theorem gather_of_any {form : List Ty → Ty} {parts : Ty → List Ty} {ts : List Ty}
    (hany : any ∈ ts.flatMap parts) : gather form parts ts = any := by
  apply collapse_of_any
  rw [mem_distinct]
  exact hany

namespace Assembly

variable {form : List Ty → Ty} {parts : Ty → List Ty} (h : Assembly form parts)
include h

theorem parts_any : parts any = [any] := by
  apply h.parts_of_ne
  intro ts
  exact (h.form_ne_any ts).symm

theorem flatMap_parts {ts : List Ty} (hts : ∀ t ∈ ts, ∀ us, t ≠ form us) :
    ts.flatMap parts = ts := by
  induction ts with
  | nil => rfl
  | cons t ts ih =>
      rw [List.flatMap_cons, h.parts_of_ne t (hts t List.mem_cons_self),
        ih fun u hu => hts u (List.mem_cons_of_mem t hu), List.singleton_append]

theorem parts_cases (t : Ty) : (∃ ts, t = form ts ∧ parts t = ts) ∨
    (∀ ts, t ≠ form ts) ∧ parts t = [t] := by
  by_cases ht : ∃ ts, t = form ts
  · obtain ⟨ts, rfl⟩ := ht
    exact .inl ⟨ts, rfl, h.parts_form ts⟩
  · have hne : ∀ ts, t ≠ form ts := fun ts hts => ht ⟨ts, hts⟩
    exact .inr ⟨hne, h.parts_of_ne t hne⟩

theorem ne_form_of_mem_parts {t u : Ty} (ht : IsGathered form t) (hu : u ∈ parts t) (us : List Ty) :
    u ≠ form us := by
  rcases h.parts_cases t with ⟨ts, hts, hparts⟩ | ⟨hne, hparts⟩
  · rw [hparts] at hu
    exact (ht ts hts).all_flat u hu us
  · rw [hparts, List.mem_singleton] at hu
    rw [hu]
    exact hne us

theorem gather_members {ts : List Ty} (hts : IsNormalMembers (fun u => ∀ us, u ≠ form us) ts) :
    gather form parts ts = form ts := by
  rw [gather, h.flatMap_parts hts.all_flat, distinct_eq_self hts.nodup,
    collapse_of_normal hts.any_notMem hts.length_ne_one]

theorem gather_singleton {t : Ty} (ht : IsGathered form t) : gather form parts [t] = t := by
  rcases h.parts_cases t with ⟨ts, hts, hparts⟩ | ⟨hne, hparts⟩
  · have hmembers := ht ts hts
    rw [gather, List.flatMap_singleton, hparts, distinct_eq_self hmembers.nodup,
      collapse_of_normal hmembers.any_notMem hmembers.length_ne_one, hts]
  · have hdistinct : distinct [t] = [t] := rfl
    rw [gather, List.flatMap_singleton, hparts, hdistinct, collapse_singleton]

theorem parts_gather {ts : List Ty} (hts : ∀ t ∈ ts, IsGathered form t)
    (hany : any ∉ ts.flatMap parts) :
    parts (gather form parts ts) = distinct (ts.flatMap parts) := by
  apply collapse_cases (P := fun u => parts u = distinct (ts.flatMap parts))
  · intro hmem
    exact absurd ((mem_distinct _ _).mp hmem) hany
  · intro t ht
    have hmem : t ∈ ts.flatMap parts := by
      rw [← mem_distinct, ht]
      exact List.mem_singleton_self t
    obtain ⟨u, hu, htu⟩ := List.mem_flatMap.mp hmem
    rw [ht, h.parts_of_ne t (h.ne_form_of_mem_parts (hts u hu) htu)]
  · intro _ _
    exact h.parts_form _

theorem gather_map_gather {tss : List (List Ty)} (htss : ∀ ts ∈ tss, ∀ t ∈ ts, IsGathered form t) :
    gather form parts (tss.map (gather form parts)) = gather form parts tss.flatten := by
  by_cases hany : any ∈ tss.flatten.flatMap parts
  · obtain ⟨t, ht, hmem⟩ := List.mem_flatMap.mp hany
    obtain ⟨ts, hts, hmem'⟩ := List.mem_flatten.mp ht
    have hgather : gather form parts ts = any :=
      gather_of_any (List.mem_flatMap.mpr ⟨t, hmem', hmem⟩)
    have hmap : any ∈ (tss.map (gather form parts)).flatMap parts := by
      apply List.mem_flatMap.mpr
      refine ⟨any, ?_, ?_⟩
      · rw [← hgather]
        exact List.mem_map_of_mem hts
      · rw [h.parts_any]
        exact List.mem_singleton_self any
    rw [gather_of_any hany, gather_of_any hmap]
  -- without the unknown type, gathering keeps the parts as they are
  · have hparts : ∀ ts ∈ tss, distinct (parts (gather form parts ts)) =
        distinct (ts.flatMap parts) := by
      intro ts hts
      have hnot : any ∉ ts.flatMap parts := by
        intro hmem
        obtain ⟨t, ht, hmem⟩ := List.mem_flatMap.mp hmem
        exact hany (List.mem_flatMap.mpr ⟨t, List.mem_flatten.mpr ⟨ts, hts, ht⟩, hmem⟩)
      rw [h.parts_gather (htss ts hts) hnot, distinct_eq_self (nodup_distinct _)]
    have hflatten : tss.flatten.flatMap parts = tss.flatMap fun ts => ts.flatMap parts := by
      rw [← List.flatMap_id, List.flatMap_assoc]
      rfl
    rw [gather, gather, List.flatMap_map, hflatten, distinct_flatMap_congr hparts]

/-- A function that gathers the images of a type's members can be applied to the members before they
are gathered. -/
theorem map_gather {F : Ty → Ty} (hform : ∀ ts, F (form ts) = gather form parts (ts.map F))
    (hany : F any = any) (hF : ∀ t, IsGathered form (F t)) (ts : List Ty) :
    F (gather form parts ts) = gather form parts (ts.map F) := by
  have hcollapse : F (gather form parts ts) =
      gather form parts ((distinct (ts.flatMap parts)).map F) := by
    apply collapse_cases (P := fun u =>
      F u = gather form parts ((distinct (ts.flatMap parts)).map F))
    · intro hmem
      rw [gather_of_any, hany]
      apply List.mem_flatMap.mpr
      refine ⟨any, ?_, ?_⟩
      · rw [← hany]
        exact List.mem_map_of_mem hmem
      · rw [h.parts_any]
        exact List.mem_singleton_self any
    · intro t ht
      rw [ht, List.map_singleton, h.gather_singleton (hF t)]
    · intro _ _
      exact hform _
  have hdistinct : gather form parts ((distinct (ts.flatMap parts)).map F) =
      gather form parts ((ts.flatMap parts).map F) := by
    rw [gather, gather, List.flatMap_map, List.flatMap_map, distinct_flatMap_distinct]
  have hpart : ∀ t, gather form parts ((parts t).map F) = F t := by
    intro t
    rcases h.parts_cases t with ⟨us, rfl, hparts⟩ | ⟨_, hparts⟩
    · rw [hparts, hform]
    · rw [hparts, List.map_singleton, h.gather_singleton (hF t)]
  have hmap : (ts.flatMap parts).map F = (ts.map fun t => (parts t).map F).flatten := by
    rw [List.map_flatMap, List.flatMap_def]
  rw [hcollapse, hdistinct, hmap, ← h.gather_map_gather]
  · rw [List.map_map]
    simp only [Function.comp_def, hpart]
  · intro us hus u hu
    obtain ⟨t, _, rfl⟩ := List.mem_map.mp hus
    obtain ⟨w, _, rfl⟩ := List.mem_map.mp hu
    exact hF w

end Assembly

/-! ## Normal types -/

theorem isNormal_iff (t : Ty) :
    t.IsNormal ↔ IsGathered union t ∧ IsGathered inter t ∧ ∀ u ∈ t.children, u.IsNormal := by
  constructor
  · rintro ⟨_, hunion, hinter, hparts⟩
    exact ⟨hunion, hinter, hparts⟩
  · rintro ⟨hunion, hinter, hparts⟩
    exact .intro t hunion hinter hparts

theorem IsNormal.isGathered_union {t : Ty} (h : t.IsNormal) : IsGathered union t :=
  ((isNormal_iff t).mp h).1

theorem IsNormal.isGathered_inter {t : Ty} (h : t.IsNormal) : IsGathered inter t :=
  ((isNormal_iff t).mp h).2.1

theorem IsNormal.of_mem_children {t u : Ty} (h : t.IsNormal) (hu : u ∈ t.children) : u.IsNormal :=
  ((isNormal_iff t).mp h).2.2 u hu

theorem isNormal_of_ne {t : Ty} (hunion : ∀ ts, t ≠ union ts) (hinter : ∀ ts, t ≠ inter ts)
    (h : ∀ u ∈ t.children, u.IsNormal) : t.IsNormal := by
  rw [isNormal_iff]
  exact ⟨fun ts ht => absurd ht (hunion ts), fun ts ht => absurd ht (hinter ts), h⟩

theorem isNormal_any : any.IsNormal := isNormal_of_ne nofun nofun nofun

theorem isNormal_nil : nil.IsNormal := isNormal_of_ne nofun nofun nofun

theorem isNormal_bool : bool.IsNormal := isNormal_of_ne nofun nofun nofun

theorem isNormal_var (v : TypeVar) : (var v).IsNormal := isNormal_of_ne nofun nofun nofun

theorem isNormal_placeholder (p : Placeholder) : (placeholder p).IsNormal :=
  isNormal_of_ne nofun nofun nofun

theorem isNormal_union {ts : List Ty} (h : IsNormalMembers (fun u => ∀ us, u ≠ union us) ts)
    (hts : ∀ t ∈ ts, t.IsNormal) : (union ts).IsNormal := by
  rw [isNormal_iff]
  refine ⟨?_, ?_, hts⟩
  · rintro us ⟨⟩
    exact h
  · rintro us ⟨⟩

theorem isNormal_inter {ts : List Ty} (h : IsNormalMembers (fun u => ∀ us, u ≠ inter us) ts)
    (hts : ∀ t ∈ ts, t.IsNormal) : (inter ts).IsNormal := by
  rw [isNormal_iff]
  refine ⟨?_, ?_, hts⟩
  · rintro us ⟨⟩
  · rintro us ⟨⟩
    exact h

/-- What is gathered from normal types is unknown, one of their members, or put together from
members that are normal and all different. -/
theorem Assembly.isNormal_gather {form : List Ty → Ty} {parts : Ty → List Ty}
    (h : Assembly form parts) {ts : List Ty}
    (hform : ∀ us, IsNormalMembers (fun u => ∀ ws, u ≠ form ws) us → (∀ u ∈ us, u.IsNormal) →
      (form us).IsNormal)
    (hgathered : ∀ t, t.IsNormal → IsGathered form t) (hts : ∀ t ∈ ts, t.IsNormal) :
    (gather form parts ts).IsNormal := by
  have hparts : ∀ t, t.IsNormal → ∀ u ∈ parts t, u.IsNormal := by
    intro t ht u hu
    rcases h.parts_cases t with ⟨us, hus, hparts⟩ | ⟨_, hparts⟩
    · apply ht.of_mem_children
      rw [hus, h.children_form]
      rwa [hparts] at hu
    · rw [hparts, List.mem_singleton] at hu
      rwa [hu]
  have hmem : ∀ u ∈ distinct (ts.flatMap parts), u.IsNormal ∧ ∀ us, u ≠ form us := by
    intro u hu
    rw [mem_distinct, List.mem_flatMap] at hu
    obtain ⟨t, ht, hut⟩ := hu
    exact ⟨hparts t (hts t ht) u hut, h.ne_form_of_mem_parts (hgathered t (hts t ht)) hut⟩
  apply collapse_cases (P := IsNormal)
  · exact fun _ => isNormal_any
  · intro t ht
    apply (hmem t _).1
    rw [ht]
    exact List.mem_singleton_self t
  · intro hnot hlength
    apply hform
    · exact ⟨nodup_distinct _, hnot, hlength, fun u hu => (hmem u hu).2⟩
    · exact fun u hu => (hmem u hu).1

theorem isNormal_unionOf {ts : List Ty} (hts : ∀ t ∈ ts, t.IsNormal) : (unionOf ts).IsNormal := by
  refine assembly_union.isNormal_gather (fun us => ?_) (fun t ht => ?_) hts
  · exact isNormal_union
  · exact ht.isGathered_union

theorem isNormal_interOf {ts : List Ty} (hts : ∀ t ∈ ts, t.IsNormal) : (interOf ts).IsNormal := by
  refine assembly_inter.isNormal_gather (fun us => ?_) (fun t ht => ?_) hts
  · exact isNormal_inter
  · exact ht.isGathered_inter

theorem isNormal_or {t u : Ty} (ht : t.IsNormal) (hu : u.IsNormal) : (t.or u).IsNormal := by
  apply isNormal_unionOf
  rw [List.forall_mem_cons, List.forall_mem_singleton]
  exact ⟨ht, hu⟩

theorem isNormal_and {t u : Ty} (ht : t.IsNormal) (hu : u.IsNormal) : (t.and u).IsNormal := by
  apply isNormal_interOf
  rw [List.forall_mem_cons, List.forall_mem_singleton]
  exact ⟨ht, hu⟩

theorem children_mapParts_proc (f : Ty → Ty) (params : Params Ty) (result : Ty) :
    (mapParts f (proc params result)).children = (params.contents ++ [result]).map f := by
  rw [mapParts, children, Params.contents_map, List.map_append, List.map_singleton]

theorem isNormal_mapParts {f : Ty → Ty} {t : Ty} (h : ∀ u ∈ t.children, (f u).IsNormal) :
    (t.mapParts f).IsNormal := by
  have hmap : ∀ us : List Ty, (∀ u ∈ us, (f u).IsNormal) → ∀ w ∈ us.map f, w.IsNormal := by
    intro us hus w hw
    obtain ⟨u, hu, rfl⟩ := List.mem_map.mp hw
    exact hus u hu
  cases t with
  | union members => exact isNormal_unionOf (hmap members h)
  | inter members => exact isNormal_interOf (hmap members h)
  | name head kind args =>
      exact isNormal_of_ne (by simp [mapParts]) (by simp [mapParts]) (hmap args h)
  | proc params result =>
      have hparts : ∀ u ∈ (mapParts f (proc params result)).children, u.IsNormal := by
        rw [children_mapParts_proc]
        exact hmap (params.contents ++ [result]) h
      exact isNormal_of_ne (by simp [mapParts]) (by simp [mapParts]) hparts
  | _ =>
      exact isNormal_of_ne (by simp [mapParts]) (by simp [mapParts]) (by simp [mapParts, children])

theorem mapParts_eq_self {f : Ty → Ty} {t : Ty} (ht : t.IsNormal) (h : ∀ u ∈ t.children, f u = u) :
    t.mapParts f = t := by
  have hid : t.mapParts f = t.mapParts id := mapParts_congr h
  rw [hid]
  cases t with
  | union members =>
      rw [mapParts, List.map_id, unionOf_eq_gather, assembly_union.gather_members (ht.isGathered_union _ rfl)]
  | inter members =>
      rw [mapParts, List.map_id, interOf_eq_gather, assembly_inter.gather_members (ht.isGathered_inter _ rfl)]
  | name head kind args => rw [mapParts, List.map_id]
  | proc params result => rw [mapParts, Params.map_id, id]
  | _ => rfl

/-- Whether a type is a variable or a placeholder, which a substitution may replace. -/
def isOpen : Ty → Bool
  | var _ => true
  | placeholder _ => true
  | _ => false

theorem isVar_of_isOpen_eq_false {t : Ty} (h : t.isOpen = false) : t.isVar = false := by
  cases t with
  | var v => cases h
  | _ => rfl

theorem map_mapParts {F : Ty → Ty} (hF : ∀ t, t.isOpen = false → F t = t.mapParts F)
    (hnormal : ∀ t, (F t).IsNormal) (f : Ty → Ty) {t : Ty} (ht : t.isOpen = false) :
    F (t.mapParts f) = t.mapParts fun u => F (f u) := by
  cases t with
  | union members =>
      have hmap := assembly_union.map_gather (fun ts => hF (union ts) rfl) (hF any rfl)
        (fun t => (hnormal t).isGathered_union) (members.map f)
      rw [mapParts, unionOf_eq_gather, hmap, List.map_map]
      rfl
  | inter members =>
      have hmap := assembly_inter.map_gather (fun ts => hF (inter ts) rfl) (hF any rfl)
        (fun t => (hnormal t).isGathered_inter) (members.map f)
      rw [mapParts, interOf_eq_gather, hmap, List.map_map]
      rfl
  | name head kind args =>
      rw [mapParts, hF _ rfl, mapParts, List.map_map]
      rfl
  | proc params result =>
      rw [mapParts, hF _ rfl, mapParts, Params.map_map]
      rfl
  | var v => cases ht
  | placeholder p => cases ht
  | _ => exact hF _ rfl

/-! ## What holds of all parts -/

/-- Whether something holds of a type exactly if it holds of all its parts, but for variables and
placeholders. -/
def Hereditary (P : Ty → Prop) : Prop := ∀ t, t.isOpen = false → (P t ↔ ∀ u ∈ t.children, P u)

namespace Hereditary

variable {P : Ty → Prop} (hP : Hereditary P)
include hP

theorem gather {form : List Ty → Ty} {parts : Ty → List Ty} (h : Assembly form parts)
    (hopen : ∀ ts, (form ts).isOpen = false) {ts : List Ty} (hts : ∀ t ∈ ts, P t) :
    P (gather form parts ts) := by
  have hform : ∀ us, P (form us) ↔ ∀ u ∈ us, P u := by
    intro us
    rw [hP (form us) (hopen us), h.children_form]
  have hmem : ∀ u ∈ distinct (ts.flatMap parts), P u := by
    intro u hu
    rw [mem_distinct, List.mem_flatMap] at hu
    obtain ⟨t, ht, hut⟩ := hu
    rcases h.parts_cases t with ⟨us, rfl, hparts⟩ | ⟨_, hparts⟩
    · rw [hparts] at hut
      exact (hform us).mp (hts _ ht) u hut
    · rw [hparts, List.mem_singleton] at hut
      rw [hut]
      exact hts t ht
  apply collapse_cases
  · exact fun _ => (hP any rfl).mpr nofun
  · intro t ht
    apply hmem
    rw [ht]
    exact List.mem_singleton_self t
  · exact fun _ _ => (hform _).mpr hmem

theorem unionOf {ts : List Ty} (hts : ∀ t ∈ ts, P t) : P (unionOf ts) :=
  hP.gather assembly_union (fun _ => rfl) hts

theorem interOf {ts : List Ty} (hts : ∀ t ∈ ts, P t) : P (interOf ts) :=
  hP.gather assembly_inter (fun _ => rfl) hts

theorem mapParts {f : Ty → Ty} {t : Ty} (ht : t.isOpen = false) (h : ∀ u ∈ t.children, P (f u)) :
    P (t.mapParts f) := by
  have hmap : ∀ us : List Ty, (∀ u ∈ us, P (f u)) → ∀ w ∈ us.map f, P w :=
    fun us hus => List.forall_mem_map.mpr hus
  cases t with
  | union members => exact hP.unionOf (hmap members h)
  | inter members => exact hP.interOf (hmap members h)
  | name head kind args => exact (hP _ rfl).mpr (hmap args h)
  | proc params result =>
      rw [hP _ rfl, children_mapParts_proc]
      exact hmap (params.contents ++ [result]) h
  | var v => cases ht
  | placeholder p => cases ht
  | _ => exact (hP _ rfl).mpr nofun

end Hereditary

end Subtyping.Ty
