import Subtyping.Proofs.Signature.Capture
import Subtyping.Proofs.Signature.Types
import Subtyping.Proofs.Unfolding.Holds

/-!
# Type parameters of joins and meets

Before two signatures are joined or met, type parameters that both have are renamed on one side. The
result binds the type parameters of both sides, so it also binds a variable that is free in one side
and a type parameter of the other: `captured_iff` says that it binds no other variable of the two.
-/

namespace Subtyping

namespace FreshSupply

theorem nodup_drawAll (s : FreshSupply) (vs : List TypeVar) : (s.drawAll vs).1.Nodup := by
  induction vs generalizing s with
  | nil => exact List.nodup_nil
  | cons v vs ih =>
      rw [drawAll, List.nodup_cons]
      refine ⟨fun h => ?_, ih _⟩
      have hle := (id_of_mem_drawAll h).1
      simp only [draw] at hle
      omega

theorem notMem_of_mem_drawAll {s : FreshSupply} {vs ws : List TypeVar} (hs : s.Above ws)
    {w : TypeVar} (hw : w ∈ (s.drawAll vs).1) : w ∉ ws := by
  intro h
  have hlt := hs w h
  have hle := (id_of_mem_drawAll hw).1
  exact Nat.lt_irrefl w.id (Nat.lt_of_lt_of_le hlt hle)

end FreshSupply

namespace Signature

theorem mem_freeVars_iff {m : Signature} {v : TypeVar} :
    v ∈ m.freeVars ↔ (∃ t ∈ m.types, v ∈ t.vars) ∧ v ∉ m.typeParams := by
  rw [freeVars, List.mem_filter, List.mem_flatMap, decide_eq_true_eq]

theorem mem_vars_of_mem_freeVars {m : Signature} {v : TypeVar} (h : v ∈ m.freeVars) : v ∈ m.vars := by
  obtain ⟨⟨t, ht, hv⟩, _⟩ := mem_freeVars_iff.mp h
  exact mem_vars_of_mem_types ht hv

/-- Neither signature has a type parameter that is free in the other. -/
def NoCapture (a b : Signature) : Prop :=
  (∀ v ∈ a.typeParams, v ∉ b.freeVars) ∧ ∀ v ∈ b.typeParams, v ∉ a.freeVars

instance (a b : Signature) : Decidable (NoCapture a b) :=
  inferInstanceAs (Decidable (_ ∧ _))

section Separate

variable {a b : Signature} {supply : FreshSupply} {v : TypeVar}

theorem typeParams_separate :
    (separate a b supply).1 =
      a.typeParams ++ b.typeParams.filter (· ∉ a.typeParams) ++
        (supply.drawAll (shared a b)).1 := by
  unfold separate
  dsimp only
  split
  next h =>
    rw [List.isEmpty_iff.mp h, FreshSupply.drawAll, List.append_nil]
  next => rfl

theorem mem_typeParams_separate_iff :
    v ∈ (separate a b supply).1 ↔
      v ∈ a.typeParams ∨ v ∈ b.typeParams ∨ v ∈ (supply.drawAll (shared a b)).1 := by
  rw [typeParams_separate, List.append_assoc, List.mem_append, List.mem_append, List.mem_filter,
    decide_eq_true_eq]
  by_cases hv : v ∈ a.typeParams <;> simp [hv]

theorem nodup_typeParams_separate (ha : a.typeParams.Nodup) (hb : b.typeParams.Nodup)
    (hs : supply.Above (a.vars ++ b.vars)) : (separate a b supply).1.Nodup := by
  have hnew : ∀ w ∈ (supply.drawAll (shared a b)).1, w ∉ a.typeParams ∧ w ∉ b.typeParams := by
    intro w hw
    have hold := FreshSupply.notMem_of_mem_drawAll hs hw
    rw [List.mem_append, not_or] at hold
    exact ⟨fun h => hold.1 (List.mem_append_left _ h), fun h => hold.2 (List.mem_append_left _ h)⟩
  have hbinders : (a.typeParams ++ b.typeParams.filter (· ∉ a.typeParams)).Nodup := by
    refine List.nodup_append.mpr ⟨ha, hb.filter _, ?_⟩
    rintro v hva w hwb rfl
    exact of_decide_eq_true (List.mem_filter.mp hwb).2 hva
  rw [typeParams_separate]
  refine List.nodup_append.mpr ⟨hbinders, FreshSupply.nodup_drawAll supply _, ?_⟩
  rintro v hv w hw rfl
  rcases List.mem_append.mp hv with hv | hv
  · exact (hnew v hw).1 hv
  · exact (hnew v hw).2 (List.mem_filter.mp hv).1

theorem mem_vars_separated {t : Ty} (ht : t ∈ (separated a b supply).types) (hv : v ∈ t.vars) :
    (∃ u ∈ b.types, v ∈ u.vars) ∧ v ∉ shared a b ∨ v ∈ (supply.drawAll (shared a b)).1 := by
  unfold separated separate at ht
  dsimp only at ht
  split at ht
  next h =>
    rw [List.isEmpty_iff.mp h]
    exact .inl ⟨⟨t, ht, hv⟩, List.not_mem_nil⟩
  next =>
    rw [types_instantiate] at ht
    obtain ⟨u, hu, rfl⟩ := List.mem_map.mp ht
    rcases Ty.mem_vars_rename (supply.length_drawAll _) hv with ⟨hvu, hshared⟩ | hnew
    · exact .inl ⟨⟨u, hu, hvu⟩, hshared⟩
    · exact .inr hnew

end Separate

section Combine

theorem carriesOver_notMem_vars (v : TypeVar) : Ty.CarriesOver fun t => v ∉ t.vars where
  or ht hu := (Ty.hereditary_notMem_vars v).unionOf
    (List.forall_mem_cons.mpr ⟨ht, List.forall_mem_singleton.mpr hu⟩)
  and ht hu := (Ty.hereditary_notMem_vars v).interOf
    (List.forall_mem_cons.mpr ⟨ht, List.forall_mem_singleton.mpr hu⟩)

/-- What joins and meets have in common: the type parameters of both sides, and types that are put
together from the types of the two sides. -/
structure Combined (a b : Signature) (supply : FreshSupply) (r : Signature) : Prop where
  typeParams : r.typeParams = (separate a b supply).1
  types : ∀ {P : Ty → Prop}, Ty.CarriesOver P → a.All P → (separated a b supply).All P → r.All P

variable {a b r : Signature} {supply : FreshSupply}

theorem combined_join? (h : (a.join? b supply).1 = some r) : Combined a b supply r where
  typeParams := by
    obtain ⟨_, _, _, _, rfl⟩ := exists_of_join? h
    rfl
  types hP ha hb := all_join? hP ha hb h

theorem combined_meet? (h : (a.meet? b supply).1 = some r) : Combined a b supply r where
  typeParams := by
    obtain ⟨_, _, rfl⟩ := exists_of_meet? h
    rfl
  types hP ha hb := all_meet? hP ha hb h

theorem Combined.mem_freeVars (h : Combined a b supply r) {v : TypeVar} (hv : v ∈ r.freeVars) :
    v ∈ a.freeVars ∨ v ∈ b.freeVars := by
  obtain ⟨⟨t, ht, hvt⟩, hbound⟩ := mem_freeVars_iff.mp hv
  rw [h.typeParams, mem_typeParams_separate_iff, not_or, not_or] at hbound
  obtain ⟨ha, hb, hnew⟩ := hbound
  rw [or_iff_not_and_not]
  rintro ⟨hva, hvb⟩
  -- it would be in no type of either side
  refine h.types (carriesOver_notMem_vars v) (fun u hu hvu => ?_) (fun u hu hvu => ?_) t ht hvt
  · exact hva (mem_freeVars_iff.mpr ⟨⟨u, hu, hvu⟩, ha⟩)
  · rcases mem_vars_separated hu hvu with ⟨hvb', _⟩ | hw
    · exact hvb (mem_freeVars_iff.mpr ⟨hvb', hb⟩)
    · exact hnew hw

/-- The result binds those free variables of the two signatures that are type parameters of the
other one, and no others. -/
theorem Combined.captured_iff (h : Combined a b supply r)
    (hs : supply.Above (a.vars ++ b.vars)) (v : TypeVar) :
    v ∈ r.typeParams ∧ (v ∈ a.freeVars ∨ v ∈ b.freeVars) ↔
      v ∈ a.typeParams ∧ v ∈ b.freeVars ∨ v ∈ b.typeParams ∧ v ∈ a.freeVars := by
  have hold : v ∈ a.freeVars ∨ v ∈ b.freeVars → v ∈ a.vars ++ b.vars := by
    intro hv
    rw [List.mem_append]
    exact hv.imp mem_vars_of_mem_freeVars mem_vars_of_mem_freeVars
  have hfree : ∀ {m : Signature}, v ∈ m.freeVars → v ∉ m.typeParams :=
    fun hv => (mem_freeVars_iff.mp hv).2
  rw [h.typeParams, mem_typeParams_separate_iff]
  constructor
  · rintro ⟨ha | hb | hw, hv⟩
    · exact .inl ⟨ha, hv.resolve_left fun hva => hfree hva ha⟩
    · exact .inr ⟨hb, hv.resolve_right fun hvb => hfree hvb hb⟩
    · exact absurd (hold hv) (FreshSupply.notMem_of_mem_drawAll hs hw)
  · rintro (⟨ha, hv⟩ | ⟨hb, hv⟩)
    · exact ⟨.inl ha, .inr hv⟩
    · exact ⟨.inr (.inl hb), .inl hv⟩

end Combine

/-- The type parameters of a join or a meet are distinct and its free variables are free in one of
the sides. It leaves free what is free in them if and only if neither side has a type parameter that
is free in the other: of the free variables of the two sides it binds just these. -/
theorem combine_hygienic_iff {a b r : Signature} {supply : FreshSupply} (ha : a.typeParams.Nodup)
    (hb : b.typeParams.Nodup) (hs : supply.Above (a.vars ++ b.vars))
    (h : (a.join? b supply).1 = some r ∨ (a.meet? b supply).1 = some r) :
    r.typeParams.Nodup ∧ (∀ v ∈ r.freeVars, v ∈ a.freeVars ∨ v ∈ b.freeVars) ∧
      (∀ v, v ∈ r.typeParams ∧ (v ∈ a.freeVars ∨ v ∈ b.freeVars) ↔
        v ∈ a.typeParams ∧ v ∈ b.freeVars ∨ v ∈ b.typeParams ∧ v ∈ a.freeVars) ∧
      ((∀ v ∈ r.typeParams, v ∉ a.freeVars ∧ v ∉ b.freeVars) ↔ NoCapture a b) := by
  have hcombined : Combined a b supply r := h.elim combined_join? combined_meet?
  refine ⟨?_, fun v hv => hcombined.mem_freeVars hv, hcombined.captured_iff hs, ?_⟩
  · rw [hcombined.typeParams]
    exact nodup_typeParams_separate ha hb hs
  · constructor
    · intro hfree
      constructor
      · intro v hva hvb
        have hcaptured := (hcombined.captured_iff hs v).mpr (.inl ⟨hva, hvb⟩)
        exact (hfree v hcaptured.1).2 hvb
      · intro v hvb hva
        have hcaptured := (hcombined.captured_iff hs v).mpr (.inr ⟨hvb, hva⟩)
        exact (hfree v hcaptured.1).1 hva
    · intro hnone v hv
      rw [← not_or]
      intro hfree
      rcases (hcombined.captured_iff hs v).mp ⟨hv, hfree⟩ with ⟨hva, hvb⟩ | ⟨hvb, hva⟩
      · exact hnone.1 v hva hvb
      · exact hnone.2 v hvb hva

/-- A signature without arguments that returns the variable of the first number, of which it may
be the type parameter. -/
def returns (typeParams : List TypeVar) : Signature where
  typeParams := typeParams
  result := .var ⟨⟨1⟩, 0⟩

/-- Two signatures with one type parameter of the same name. -/
theorem combine_hygienic_twice :
    ∃ r, ((returns [⟨⟨1⟩, 0⟩]).join? (returns [⟨⟨1⟩, 0⟩]) {}).1 = some r ∧
      r.typeParams = [⟨⟨1⟩, 0⟩, ⟨⟨1⟩, 1⟩] ∧
      ∀ v ∈ r.typeParams, v ∉ (returns [⟨⟨1⟩, 0⟩]).freeVars ∧ v ∉ (returns [⟨⟨1⟩, 0⟩]).freeVars := by
  have hjoin : ∃ r, ((returns [⟨⟨1⟩, 0⟩]).join? (returns [⟨⟨1⟩, 0⟩]) {}).1 = some r ∧
      r.typeParams = [⟨⟨1⟩, 0⟩, ⟨⟨1⟩, 1⟩] := ⟨_, rfl, by decide +kernel⟩
  obtain ⟨r, hr, htypeParams⟩ := hjoin
  have hfree := (combine_hygienic_iff (by decide) (by decide) (by decide +kernel) (.inl hr)).2.2.2
  exact ⟨r, hr, htypeParams, hfree.mpr (by decide +kernel)⟩

/-- The variable that is free in one side is bound by the join and by the meet, since it is the type
parameter of the other. -/
theorem not_combine_hygienic :
    (returns [⟨⟨1⟩, 0⟩]).typeParams.Nodup ∧ (returns []).typeParams.Nodup ∧
      FreshSupply.Above {} ((returns [⟨⟨1⟩, 0⟩]).vars ++ (returns []).vars) ∧
      (⟨⟨1⟩, 0⟩ : TypeVar) ∈ (returns []).freeVars ∧
      (∃ r, ((returns [⟨⟨1⟩, 0⟩]).join? (returns []) {}).1 = some r ∧ ⟨⟨1⟩, 0⟩ ∈ r.typeParams) ∧
      ∃ r, ((returns [⟨⟨1⟩, 0⟩]).meet? (returns []) {}).1 = some r ∧ ⟨⟨1⟩, 0⟩ ∈ r.typeParams := by
  refine ⟨by decide, by decide, by decide +kernel, by decide +kernel, ?_, ?_⟩
  · exact ⟨_, rfl, by decide +kernel⟩
  · exact ⟨_, rfl, by decide +kernel⟩

end Signature

end Subtyping
