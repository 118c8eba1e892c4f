import Mathlib.Data.List.Forall2
import Mathlib.Data.Option.Basic
import Mathlib.Data.Set.Basic
import Subtyping.Proofs.Params.Laws
import Subtyping.Proofs.Params.Normal
import Subtyping.Proofs.Ty.Reorder

/-!
# Merging types in any order

A union is known by its members up to their order, and what it takes in is the members of the types
it is made of. So merging lists of normal types is merging lists of sets, for which order, grouping
and repetition do not matter; for the lists of types they do not matter up to the order of the
members of their types (`semilattice_union_inter?`).
-/

namespace Subtyping

namespace Ty

/-- The members of a type as a set. The unknown type stands for all types. -/
def memberSet (parts : Ty → List Ty) (t : Ty) : Set Ty := {u | any ∈ parts t ∨ u ∈ parts t}

namespace Assembly

variable {form : List Ty → Ty} {parts : Ty → List Ty} (h : Assembly form parts)
include h

theorem mem_memberSet_gather {ts : List Ty} (hts : ∀ t ∈ ts, IsGathered form t) {u : Ty} :
    u ∈ memberSet parts (gather form parts ts) ↔ ∃ t ∈ ts, u ∈ memberSet parts t := by
  by_cases hany : any ∈ ts.flatMap parts
  · obtain ⟨t, ht, hmem⟩ := List.mem_flatMap.mp hany
    rw [gather_of_any hany]
    have hall : any ∈ parts any := by simp [h.parts_any]
    exact iff_of_true (.inl hall) ⟨t, ht, .inl hmem⟩
  · have hnone : ∀ t ∈ ts, any ∉ parts t := fun t ht hmem =>
      hany (List.mem_flatMap.mpr ⟨t, ht, hmem⟩)
    simp only [memberSet, h.parts_gather hts hany, mem_distinct, Set.mem_ofPred_eq, hany, false_or,
      List.mem_flatMap]
    exact exists_congr fun t => and_congr_right fun ht => by simp [hnone t ht]

theorem memberSet_gather_pair {t u : Ty} (ht : IsGathered form t) (hu : IsGathered form u) :
    memberSet parts (gather form parts [t, u]) = memberSet parts t ∪ memberSet parts u := by
  ext x
  rw [h.mem_memberSet_gather (by simp [ht, hu]), Set.mem_union]
  simp

theorem reordered_of_memberSet_eq
    (hform : ∀ {ts us : List Ty}, ts.Perm us → Reordered (form ts) (form us)) {t u : Ty}
    (ht : IsGathered form t) (hu : IsGathered form u) (htu : memberSet parts t = memberSet parts u) :
    t.Reordered u := by
  have hmemberSet : ∀ x, (any ∈ parts t ∨ x ∈ parts t) ↔ (any ∈ parts u ∨ x ∈ parts u) :=
    Set.ext_iff.mp htu
  have hany : any ∈ parts t ↔ any ∈ parts u := by
    rw [← or_self (any ∈ parts t), hmemberSet any, or_self]
  rw [← h.gather_singleton ht, ← h.gather_singleton hu]
  by_cases hmem : any ∈ parts t
  · -- such a type is the unknown type itself, which gathering it anew shows
    rw [gather_of_any (List.mem_flatMap.mpr ⟨t, List.mem_singleton_self t, hmem⟩),
      gather_of_any (List.mem_flatMap.mpr ⟨u, List.mem_singleton_self u, hany.mp hmem⟩)]
    exact .refl any
  · have hparts : ∀ x, x ∈ parts t ↔ x ∈ parts u := by
      intro x
      have hx := hmemberSet x
      rwa [← hany, or_iff_right hmem, or_iff_right hmem] at hx
    have hperm := distinct_perm hparts
    rw [gather, gather, List.flatMap_singleton, List.flatMap_singleton]
    exact collapse_reordered (hform hperm) hperm

end Assembly

end Ty

namespace Params

/-! ## Lists that are the same but for the order of members -/

section Related

variable {α β : Type}

/-- Whether two lists have the same slots and their contents are related, slot by slot. -/
structure Related (r : α → α → Prop) (p q : Params α) : Prop where
  required : List.Forall₂ r p.required q.required
  optional : List.Forall₂ r p.optional q.optional
  rest : Option.Rel r p.rest q.rest
  requiredKeywords :
    List.Forall₂ (fun e f => e.1 = f.1 ∧ r e.2 f.2) p.requiredKeywords q.requiredKeywords
  optionalKeywords :
    List.Forall₂ (fun e f => e.1 = f.1 ∧ r e.2 f.2) p.optionalKeywords q.optionalKeywords
  restKeywords : Option.Rel r p.restKeywords q.restKeywords

theorem forall₂_of_map_eq {γ : Type} {r : α → α → Prop} {f : α → γ} {xs ys : List α}
    (hr : ∀ x ∈ xs, ∀ y ∈ ys, f x = f y → r x y) (h : xs.map f = ys.map f) :
    List.Forall₂ r xs ys := by
  induction xs generalizing ys with
  | nil =>
      rw [List.map_eq_nil_iff.mp h.symm]
      exact .nil
  | cons x xs ih =>
      obtain ⟨y, ys, rfl, hxy, hxys⟩ := List.map_eq_cons_iff.mp h.symm
      refine .cons (hr x List.mem_cons_self y List.mem_cons_self hxy.symm) (ih ?_ hxys.symm)
      exact fun x' hx y' hy => hr x' (List.mem_cons_of_mem x hx) y' (List.mem_cons_of_mem y hy)

theorem rel_of_map_eq {γ : Type} {r : α → α → Prop} {f : α → γ} {x y : Option α}
    (hr : ∀ a ∈ x, ∀ b ∈ y, f a = f b → r a b) (h : x.map f = y.map f) : Option.Rel r x y := by
  cases x with
  | none =>
      rw [Option.map_eq_none_iff.mp h.symm]
      exact .none
  | some a =>
      obtain ⟨b, rfl, hab⟩ := Option.map_eq_some_iff.mp h.symm
      exact .some (hr a rfl b rfl hab.symm)

theorem related_of_map_eq {r : α → α → Prop} {f : α → β} {p q : Params α}
    (hr : ∀ x ∈ p.contents, ∀ y ∈ q.contents, f x = f y → r x y) (h : p.map f = q.map f) :
    p.Related r q := by
  have hfixed : ∀ {s : Params α} {x : α}, x ∈ s.required ∨ x ∈ s.optional → x ∈ s.contents :=
    fun hx => mem_contents_iff.mpr (.inl (List.mem_append.mpr hx))
  have hrest : ∀ {s : Params α} {x : α}, s.rest = some x → x ∈ s.contents :=
    fun hx => mem_contents_iff.mpr (.inr (.inl hx))
  simp only [map, Params.mk.injEq] at h
  obtain ⟨hrequired, hoptional, hrest', hrequiredKeywords, hoptionalKeywords, hrestKeywords⟩ := h
  constructor
  · exact forall₂_of_map_eq (fun x hx y hy => hr x (hfixed (.inl hx)) y (hfixed (.inl hy))) hrequired
  · exact forall₂_of_map_eq (fun x hx y hy => hr x (hfixed (.inr hx)) y (hfixed (.inr hy))) hoptional
  · exact rel_of_map_eq (fun x hx y hy => hr x (hrest hx) y (hrest hy)) hrest'
  · refine forall₂_of_map_eq (fun e he f hf hef => ?_) hrequiredKeywords
    exact ⟨(Prod.mk.inj hef).1, hr _ (mem_contents_of_mem_requiredKeywords he) _
      (mem_contents_of_mem_requiredKeywords hf) (Prod.mk.inj hef).2⟩
  · refine forall₂_of_map_eq (fun e he f hf hef => ?_) hoptionalKeywords
    exact ⟨(Prod.mk.inj hef).1, hr _ (mem_contents_of_mem_optionalKeywords he) _
      (mem_contents_of_mem_optionalKeywords hf) (Prod.mk.inj hef).2⟩
  · exact rel_of_map_eq (fun x hx y hy => hr x (mem_contents_of_restKeywords hx) y
      (mem_contents_of_restKeywords hy)) hrestKeywords

theorem isProper_map (f : α → β) {p : Params α} (h : p.IsProper) : (p.map f).IsProper where
  sorted := isSorted_map f h.sorted
  disjoint k := by
    simp only [map, Assoc.keys_mapValues]
    exact h.disjoint k

end Related

/-- Whether two lists differ at most in the order of the outermost members of their types. -/
def Reordered : Params Ty → Params Ty → Prop := Related Ty.Reordered

/-! ## Merges of sets of members -/

variable {p q r : Params Ty}

section Members

variable {form : List Ty → Ty} {parts : Ty → List Ty} (h : Ty.Assembly form parts)
  (hgathered : ∀ t : Ty, t.IsNormal → Ty.IsGathered form t)
include h hgathered

theorem carries_memberSet (hp : p.IsNormal) (hq : q.IsNormal) :
    Carries (Ty.memberSet parts) (fun t u => Ty.gather form parts [t, u]) (· ∪ ·) p q where
  forth t ht u hu := h.memberSet_gather_pair (hgathered t (hp t ht)) (hgathered u (hq u hu))
  back u hu t ht := h.memberSet_gather_pair (hgathered u (hq u hu)) (hgathered t (hp t ht))

theorem reordered_of_map_memberSet_eq
    (hform : ∀ {ts us : List Ty}, ts.Perm us → (form ts).Reordered (form us)) (hp : p.IsNormal)
    (hq : q.IsNormal) (hpq : p.map (Ty.memberSet parts) = q.map (Ty.memberSet parts)) :
    p.Reordered q := by
  refine related_of_map_eq (fun t ht u hu => ?_) hpq
  exact h.reordered_of_memberSet_eq hform (hgathered t (hp t ht)) (hgathered u (hq u hu))

end Members

instance : Std.IdempotentOp fun s t : Set Ty => s ∪ t := ⟨Set.union_self⟩

/-- Whether the types of a list are normal and its keywords are those of a proper list. -/
structure IsTidy (p : Params Ty) : Prop where
  proper : p.IsProper
  normal : p.IsNormal

theorem isTidy_union (hp : p.IsTidy) (hq : q.IsTidy) : (p.union q).IsTidy where
  proper := isProper_unionWith Ty.or hp.proper
  normal := isNormal_union hp.normal hq.normal

theorem isTidy_inter? (hp : p.IsTidy) (hq : q.IsTidy) (hr : p.inter? q = some r) : r.IsTidy := by
  refine ⟨?_, isNormal_inter? hp.normal hq.normal hr⟩
  obtain ⟨_, rfl⟩ := (interWith?_eq_some_iff Ty.and p q r).mp hr
  exact isProper_interWith Ty.and

theorem reordered_value_union {g h : Grouping (Params Ty)} (hg : ∀ p ∈ g.members, p.IsTidy)
    (hgh : ∀ p, p ∈ g.members ↔ p ∈ h.members) : (g.value union).Reordered (h.value union) := by
  have hgathered : ∀ t : Ty, t.IsNormal → Ty.IsGathered Ty.union t :=
    fun _ ht => ht.isGathered_union
  apply Grouping.value_rel (f := map (Ty.memberSet Ty.alternatives)) (P := IsTidy)
    (semilatticeOn_unionWith fun s t : Set Ty => s ∪ t) isTidy_union _ _ _ hg hgh
  · intro p q hp hq
    exact map_unionWith (carries_memberSet Ty.assembly_union hgathered hp.normal hq.normal)
  · intro p hp
    exact isProper_map _ hp.proper
  · intro p q hp hq
    exact reordered_of_map_memberSet_eq Ty.assembly_union hgathered .union hp.normal hq.normal

/-- The parameter list for calls that two lists take, of which either may have come to nothing. -/
def interBoth? : Option (Params Ty) → Option (Params Ty) → Option (Params Ty) := bothWith? Ty.and

theorem reordered_value_inter? {g h : Grouping (Option (Params Ty))}
    (hg : ∀ x ∈ g.members, ∀ p ∈ x, p.IsTidy) (hgh : ∀ x, x ∈ g.members ↔ x ∈ h.members) :
    Option.Rel Reordered (g.value interBoth?) (h.value interBoth?) := by
  have hgathered : ∀ t : Ty, t.IsNormal → Ty.IsGathered Ty.inter t :=
    fun _ ht => ht.isGathered_inter
  apply Grouping.value_rel (f := Option.map (map (Ty.memberSet Ty.demands)))
    (P := fun x => ∀ p ∈ x, p.IsTidy)
    (semilatticeOn_bothWith? fun s t : Set Ty => s ∪ t) _ _ _ _ hg hgh
  · intro x y hx hy r hr
    obtain ⟨p, rfl, hr⟩ := Option.bind_eq_some_iff.mp hr
    obtain ⟨q, rfl, hr⟩ := Option.bind_eq_some_iff.mp hr
    exact isTidy_inter? (hx p rfl) (hy q rfl) hr
  · -- whether two lists have a merge is the same for their images
    rintro (_ | p) (_ | q) hx hy <;> try rfl
    exact map_interWith?
      (carries_memberSet Ty.assembly_inter hgathered (hx p rfl).normal (hy q rfl).normal)
  · rintro x hx p' hp'
    obtain ⟨p, hp, rfl⟩ := Option.map_eq_some_iff.mp hp'
    exact isProper_map _ (hx p hp).proper
  · intro x y hx hy
    apply rel_of_map_eq
    intro p hp q hq
    exact reordered_of_map_memberSet_eq Ty.assembly_inter hgathered .inter (hx p hp).normal
      (hy q hq).normal

/-- In whatever order and grouping a set of lists is merged, the same comes of it, up to the order of
members. -/
theorem reordered_value {g h : Grouping (Params Ty)} (hg : ∀ p ∈ g.members, p.IsTidy)
    (hgh : ∀ p, p ∈ g.members ↔ p ∈ h.members) :
    (g.value union).Reordered (h.value union) ∧
      Option.Rel Reordered ((g.map some).value interBoth?) ((h.map some).value interBoth?) := by
  refine ⟨reordered_value_union hg hgh, reordered_value_inter? ?_ ?_⟩
  · rw [Grouping.members_map]
    exact List.forall_mem_map.mpr fun p hp s hs => Option.some.inj hs ▸ hg p hp
  · intro x
    simp only [Grouping.members_map, List.mem_map, hgh]

/-- The merges of lists are semilattices up to the order of members, also where lists that cannot be
merged come to nothing. So a set of lists can be merged in any order and grouping. -/
theorem semilattice_union_inter? (hp : p.IsTidy) (hq : q.IsTidy) (hr : r.IsTidy) :
    ((p.union p).Reordered p ∧ (p.union q).Reordered (q.union p) ∧
        ((p.union q).union r).Reordered (p.union (q.union r))) ∧
      (Option.Rel Reordered (p.inter? p) (some p) ∧
        Option.Rel Reordered (p.inter? q) (q.inter? p) ∧
        Option.Rel Reordered ((p.inter? q).bind fun s => s.inter? r)
          ((q.inter? r).bind fun s => p.inter? s)) ∧
      ∀ g h : Grouping (Params Ty), (∀ s ∈ g.members, s.IsTidy) →
        (∀ s, s ∈ g.members ↔ s ∈ h.members) →
        (g.value union).Reordered (h.value union) ∧
          Option.Rel Reordered ((g.map some).value interBoth?) ((h.map some).value interBoth?) := by
  have hself := reordered_value (g := .pair (.single p) (.single p)) (h := .single p)
    (by simp [Grouping.members, hp]) (by simp [Grouping.members])
  have hcomm := reordered_value (g := .pair (.single p) (.single q))
    (h := .pair (.single q) (.single p))
    (by simp [Grouping.members, hp, hq]) (by simp [Grouping.members, or_comm])
  have hassoc := reordered_value (g := .pair (.pair (.single p) (.single q)) (.single r))
    (h := .pair (.single p) (.pair (.single q) (.single r)))
    (by simp [Grouping.members, hp, hq, hr]) (by simp [Grouping.members])
  exact ⟨⟨hself.1, hcomm.1, hassoc.1⟩, ⟨hself.2, hcomm.2, hassoc.2⟩,
    fun _ _ hg hgh => reordered_value hg hgh⟩

/-- A keyword is optional, required and left to a slot for all others, and a fixed slot meets a slot
for all other arguments and one of an unknown type. -/
theorem semilattice_union_inter?_shapes :
    let p : Params Ty := { required := [.union [.nil, .bool]], optionalKeywords := [(⟨1⟩, .nil)] }
    let q : Params Ty := { rest := some .nil, requiredKeywords := [(⟨1⟩, .bool)] }
    let r : Params Ty := { required := [.any], restKeywords := some .bool }
    (p.IsTidy ∧ q.IsTidy ∧ r.IsTidy) ∧
      ((p.union p).Reordered p ∧ (p.union q).Reordered (q.union p) ∧
        ((p.union q).union r).Reordered (p.union (q.union r))) ∧
      (Option.Rel Reordered (p.inter? p) (some p) ∧
        Option.Rel Reordered (p.inter? q) (q.inter? p) ∧
        Option.Rel Reordered ((p.inter? q).bind fun s => s.inter? r)
          ((q.inter? r).bind fun s => p.inter? s)) := by
  intro p q r
  have hunion : (Ty.union [.nil, .bool]).IsNormal :=
    Ty.isNormal_union ⟨by decide, by decide, by decide, by simp⟩
      (by simp [Ty.isNormal_nil, Ty.isNormal_bool])
  have hp : p.IsTidy := ⟨⟨by simp [p, IsSorted, Assoc.IsSorted], by decide⟩,
    by simp [p, IsNormal, All, contents, Assoc.values, Ty.isNormal_nil, hunion]⟩
  have hq : q.IsTidy := ⟨⟨by simp [q, IsSorted, Assoc.IsSorted], by decide⟩,
    by simp [q, IsNormal, All, contents, Assoc.values, Ty.isNormal_nil, Ty.isNormal_bool]⟩
  have hr : r.IsTidy := ⟨⟨by simp [r, IsSorted, Assoc.IsSorted], by decide⟩,
    by simp [r, IsNormal, All, contents, Assoc.values, Ty.isNormal_any, Ty.isNormal_bool]⟩
  obtain ⟨hunion, hinter, _⟩ := semilattice_union_inter? hp hq hr
  exact ⟨⟨hp, hq, hr⟩, hunion, hinter⟩

-- The members stand in the order in which the lists are merged.
example : union { required := [.nil] } { required := [.bool] } ≠
    union { required := [.bool] } { required := [.nil] } := by decide

end Params

end Subtyping
