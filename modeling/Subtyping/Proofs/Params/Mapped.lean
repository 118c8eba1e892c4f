import Mathlib.Data.List.Basic
import Subtyping.Proofs.Params.Contents

/-!
# Merges of mapped lists

How the slots of two lists are lined up, and whether the lists can be reconciled, is a matter of
their shapes. So a function that turns merged contents into merged images (`Carries`) can be applied
to the slots before or after the lists are merged (`map_unionWith`, `map_interWith?`).
-/

namespace Subtyping

namespace Assoc

variable {κ α β : Type} (f : α → β)

theorem mapValues_filter (p : κ → Bool) (m : List (κ × α)) :
    mapValues f (m.filter fun e => p e.1) = (mapValues f m).filter fun e => p e.1 := by
  rw [mapValues, mapValues, List.filter_map]
  rfl

theorem mapValues_append (m n : List (κ × α)) :
    mapValues f (m ++ n) = mapValues f m ++ mapValues f n := List.map_append

variable [DecidableEq κ]

theorem has_mapValues (k : κ) (m : List (κ × α)) : has k (mapValues f m) = has k m := by
  rw [has, has, get?_mapValues, Option.isSome_map]

theorem mapValues_ofFirsts [LT κ] [DecidableLT κ] (es : List (κ × α)) :
    mapValues f (ofFirsts es) = ofFirsts (mapValues f es) := by
  induction es with
  | nil => rfl
  | cons e es ih =>
      have hcons : ofFirsts (mapValues f (e :: es)) =
          insert e.1 (f e.2) (ofFirsts (mapValues f es)) := rfl
      rw [hcons, ← ih, ← mapValues_insert]
      rfl

end Assoc

namespace Params

variable {α β : Type} {f : α → β} {merge : α → α → α} {merge' : β → β → β}
variable {p q : Params α}

/-- Whether a function turns what is merged from contents of two lists into what is merged from their
images, whichever of the two comes first. -/
structure Carries (f : α → β) (merge : α → α → α) (merge' : β → β → β) (p q : Params α) : Prop where
  forth : ∀ x ∈ p.contents, ∀ y ∈ q.contents, f (merge x y) = merge' (f x) (f y)
  back : ∀ y ∈ q.contents, ∀ x ∈ p.contents, f (merge y x) = merge' (f y) (f x)

theorem Carries.symm (h : Carries f merge merge' p q) : Carries f merge merge' q p where
  forth := h.back
  back := h.forth

/-! ## Positional slots -/

theorem fixedSlots_map (f : α → β) (p : Params α) :
    (p.map f).fixedSlots = p.fixedSlots.map (Slot.map f) := by
  simp only [fixedSlots, map, List.map_append, List.map_map]
  rfl

theorem restSlot_map (f : α → β) (p : Params α) :
    (p.map f).restSlot = p.restSlot.map (Slot.map f) := by
  simp only [restSlot, map, Option.map_map]
  rfl

theorem positions_map (f : α → β) (p q : Params α) :
    positions (p.map f) (q.map f) =
      (positions p q).map (Prod.map (Option.map (Slot.map f)) (Option.map (Slot.map f))) := by
  rw [positions, positions, List.map_append, fixedSlots_map, fixedSlots_map, restSlot_map,
    restSlot_map]
  congr 1
  apply List.ext_getElem?
  intro i
  rw [List.getElem?_map, List.getElem?_zipWithAll, List.getElem?_zipWithAll, List.getElem?_map,
    List.getElem?_map]
  cases p.fixedSlots[i]? <;> cases q.fixedSlots[i]? <;> simp

theorem map_ofSlots (f : α → β) (slots : List (Slot α)) :
    (ofSlots slots).map f = ofSlots (slots.map (Slot.map f)) := by
  have hkind : ∀ kind : SlotKind, (fun s : Slot β => s.kind == kind) ∘ Slot.map f =
      fun s => s.kind == kind := fun kind => rfl
  simp only [ofSlots, map, List.filter_map, List.find?_map, List.map_map, Option.map_map, hkind]
  rfl

theorem map_filterMap_positions {g : Option (Slot α) × Option (Slot α) → Option (Slot α)}
    {g' : Option (Slot β) × Option (Slot β) → Option (Slot β)}
    (h : ∀ s t : Option (Slot α), (∀ x ∈ s, x.content ∈ p.contents) →
      (∀ y ∈ t, y.content ∈ q.contents) →
      (g (s, t)).map (Slot.map f) = g' (s.map (Slot.map f), t.map (Slot.map f))) :
    (ofSlots ((positions p q).filterMap g)).map f =
      ofSlots ((positions (p.map f) (q.map f)).filterMap g') := by
  rw [map_ofSlots, positions_map, List.filterMap_map, List.map_filterMap]
  congr 1
  apply List.filterMap_congr
  rintro ⟨s, t⟩ hst
  obtain ⟨hs, ht⟩ := content_mem_of_mem_positions hst
  exact h s t hs ht

theorem map_ofSlots_unionSlots (h : Carries f merge merge' p q) :
    (ofSlots (unionSlots merge p q)).map f = ofSlots (unionSlots merge' (p.map f) (q.map f)) := by
  apply map_filterMap_positions
  intro s t hs ht
  cases s with
  | none => cases t <;> rfl
  | some s =>
      cases t with
      | none => rfl
      | some t => simp [Slot.union?, Slot.map, h.forth _ (hs s rfl) _ (ht t rfl)]

theorem map_ofSlots_interSlots (h : Carries f merge merge' p q) :
    (ofSlots (interSlots merge p q)).map f = ofSlots (interSlots merge' (p.map f) (q.map f)) := by
  apply map_filterMap_positions
  intro s t hs ht
  cases s with
  | none => cases t <;> rfl
  | some s =>
      cases t with
      | none => rfl
      | some t => simp [Slot.inter?, Slot.map, h.forth _ (hs s rfl) _ (ht t rfl)]

/-! ## Keywords -/

theorem mapValues_filterMap (merge' : β → β → β) (g : Atom → Option α) {m : List (Atom × α)}
    (h : ∀ e ∈ m, ∀ y, g e.1 = some y → f (merge e.2 y) = merge' (f e.2) (f y)) :
    Assoc.mapValues f (m.filterMap fun e => (g e.1).map fun y => (e.1, merge e.2 y)) =
      (Assoc.mapValues f m).filterMap fun e =>
        ((g e.1).map f).map fun y => (e.1, merge' e.2 y) := by
  rw [Assoc.mapValues, Assoc.mapValues, List.map_filterMap, List.filterMap_map]
  apply List.filterMap_congr
  intro e he
  cases hy : g e.1 with
  | none => simp [hy]
  | some y => simp [hy, h e he y hy]

theorem mapValues_bothRequired (h : Carries f merge merge' p q) :
    Assoc.mapValues f (bothRequired merge p q) = bothRequired merge' (p.map f) (q.map f) := by
  rw [bothRequired,
    mapValues_filterMap merge' fun k => Assoc.get? k q.requiredKeywords]
  · simp only [bothRequired, map, Assoc.get?_mapValues]
  · intro e he y hy
    exact h.forth _ (mem_contents_of_mem_requiredKeywords he) _
      (mem_contents_of_mem_requiredKeywords (Assoc.mem_of_get?_eq_some hy))

theorem mapValues_offered (h : Carries f merge merge' p q) :
    Assoc.mapValues f (offered merge p q) = offered merge' (p.map f) (q.map f) := by
  have hnamed : (p.map f).requiredKeywords ++ (p.map f).optionalKeywords =
      Assoc.mapValues f (p.requiredKeywords ++ p.optionalKeywords) := List.map_append.symm
  rw [offered, offered, hnamed, Assoc.mapValues, Assoc.mapValues, List.map_map, List.map_map]
  apply List.map_congr_left
  intro e he
  have hx : e.2 ∈ p.contents := (List.mem_append.mp he).elim mem_contents_of_mem_requiredKeywords
    mem_contents_of_mem_optionalKeywords
  cases hy : q.keyword? e.1 with
  | none => simp [keyword?_map, hy]
  | some y => simp [keyword?_map, hy, h.forth _ hx _ (mem_contents_of_keyword? hy)]

theorem mapValues_granted (h : Carries f merge merge' p q) :
    Assoc.mapValues f (granted merge p q) = granted merge' (p.map f) (q.map f) := by
  rw [granted, mapValues_filterMap merge' q.keyword?]
  · simp only [granted, keyword?_map]
    rfl
  · intro e he y hy
    exact h.forth _ (mem_contents_of_mem_requiredKeywords he) _ (mem_contents_of_keyword? hy)

theorem mapValues_spared (h : Carries f merge merge' p q) :
    Assoc.mapValues f (spared merge p q) = spared merge' (p.map f) (q.map f) := by
  rw [spared, mapValues_filterMap merge'
    fun k => (Assoc.get? k q.optionalKeywords).or q.restKeywords]
  · simp only [spared, map, Assoc.get?_mapValues, Option.map_or]
  · intro e he y hy
    apply h.forth _ (mem_contents_of_mem_optionalKeywords he)
    rcases Option.or_eq_some_iff.mp hy with hy | ⟨_, hy⟩
    · exact mem_contents_of_mem_optionalKeywords (Assoc.mem_of_get?_eq_some hy)
    · exact mem_contents_of_restKeywords hy

theorem mapValues_ofFirsts_filter (es required : List (Atom × α)) :
    Assoc.mapValues f (Assoc.ofFirsts (es.filter fun e => !Assoc.has e.1 required)) =
      Assoc.ofFirsts ((Assoc.mapValues f es).filter
        fun e => !Assoc.has e.1 (Assoc.mapValues f required)) := by
  rw [Assoc.mapValues_ofFirsts, Assoc.mapValues_filter f fun k => !Assoc.has k required]
  simp only [Assoc.has_mapValues]

/-! ## Whole lists -/

/-- The merge for calls that either list takes, with all contents mapped. -/
theorem map_unionWith (h : Carries f merge merge' p q) :
    (unionWith merge p q).map f = unionWith merge' (p.map f) (q.map f) := by
  have hrest : (Option.merge merge p.restKeywords q.restKeywords).map f =
      Option.merge merge' (p.restKeywords.map f) (q.restKeywords.map f) := by
    cases hx : p.restKeywords with
    | none => simp
    | some x =>
        cases hy : q.restKeywords with
        | none => simp
        | some y => simp [h.forth _ (mem_contents_of_restKeywords hx) _
            (mem_contents_of_restKeywords hy)]
  calc (unionWith merge p q).map f
      = { (ofSlots (unionSlots merge p q)).map f with
          requiredKeywords := Assoc.mapValues f (bothRequired merge p q)
          optionalKeywords := Assoc.mapValues f <| Assoc.ofFirsts <|
            (offered merge p q ++ offered merge q p).filter
              fun e => !Assoc.has e.1 (bothRequired merge p q)
          restKeywords := (Option.merge merge p.restKeywords q.restKeywords).map f } := rfl
    _ = unionWith merge' (p.map f) (q.map f) := by
      rw [map_ofSlots_unionSlots h, mapValues_ofFirsts_filter, Assoc.mapValues_append,
        mapValues_offered h, mapValues_offered h.symm, mapValues_bothRequired h, hrest]
      rfl

/-- The merge for calls that both lists take, with all contents mapped. -/
theorem map_interWith (h : Carries f merge merge' p q) :
    (interWith merge p q).map f = interWith merge' (p.map f) (q.map f) := by
  have hrequired : Assoc.mapValues f (Assoc.ofFirsts (granted merge p q ++ granted merge q p)) =
      Assoc.ofFirsts (granted merge' (p.map f) (q.map f) ++ granted merge' (q.map f) (p.map f)) := by
    rw [Assoc.mapValues_ofFirsts, Assoc.mapValues_append, mapValues_granted h,
      mapValues_granted h.symm]
  have hrest : (p.restKeywords.bind fun x => q.restKeywords.map fun y => merge x y).map f =
      (p.restKeywords.map f).bind fun x => (q.restKeywords.map f).map fun y => merge' x y := by
    cases hx : p.restKeywords with
    | none => rfl
    | some x =>
        cases hy : q.restKeywords with
        | none => rfl
        | some y => simp [h.forth _ (mem_contents_of_restKeywords hx) _
            (mem_contents_of_restKeywords hy)]
  calc (interWith merge p q).map f
      = { (ofSlots (interSlots merge p q)).map f with
          requiredKeywords :=
            Assoc.mapValues f (Assoc.ofFirsts (granted merge p q ++ granted merge q p))
          optionalKeywords := Assoc.mapValues f <| Assoc.ofFirsts <|
            (spared merge p q ++ spared merge q p).filter
              fun e => !Assoc.has e.1 (Assoc.ofFirsts (granted merge p q ++ granted merge q p))
          restKeywords :=
            (p.restKeywords.bind fun x => q.restKeywords.map fun y => merge x y).map f } := rfl
    _ = interWith merge' (p.map f) (q.map f) := by
      rw [map_ofSlots_interSlots h, mapValues_ofFirsts_filter, Assoc.mapValues_append,
        mapValues_spared h, mapValues_spared h.symm, hrequired, hrest]
      rfl

theorem reconcilable_map (f : α → β) (p q : Params α) :
    reconcilable (p.map f) (q.map f) = reconcilable p q := by
  have hclash : ∀ s : Option (Slot α) × Option (Slot α),
      Slot.clash (s.1.map (Slot.map f), s.2.map (Slot.map f)) = Slot.clash s := by
    rintro ⟨s, t⟩
    cases s <;> cases t <;> rfl
  have hkeywords : ∀ r s : Params α,
      ((r.map f).requiredKeywords.all fun e => ((s.map f).keyword? e.1).isSome) =
        r.requiredKeywords.all fun e => (s.keyword? e.1).isSome := by
    intro r s
    simp only [keyword?_map, Option.isSome_map]
    exact List.all_map
  rw [reconcilable, reconcilable, hkeywords, hkeywords, positions_map, List.all_map]
  simp only [Function.comp_def, Prod.map, hclash]

theorem map_interWith? (h : Carries f merge merge' p q) :
    (interWith? merge p q).map (map f) = interWith? merge' (p.map f) (q.map f) := by
  rw [interWith?, interWith?, reconcilable_map]
  split
  · rw [Option.map_some, map_interWith h]
  · rfl

end Params

end Subtyping
