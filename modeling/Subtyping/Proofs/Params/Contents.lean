import Subtyping.Params.OfTypes
import Subtyping.Proofs.Params.Pairing

/-!
# What the slots of a merge carry

A slot of a merged list carries what a slot of one of the lists carries, or what two of them carry
put together (`Merged`), whichever of the merges it is. So what holds of all contents of the lists
and carries over to what they are put together to holds of all contents of the merge.
-/

namespace Subtyping

namespace Assoc

variable {κ α : Type} [DecidableEq κ] [LT κ] [DecidableLT κ]

theorem mem_of_mem_ofFirsts {es : List (κ × α)} {e : κ × α} (h : e ∈ ofFirsts es) : e ∈ es := by
  induction es with
  | nil => exact h
  | cons f es ih =>
      rcases mem_of_mem_insert h with rfl | h
      · exact List.mem_cons_self
      · exact List.mem_cons_of_mem f (ih h)

omit [DecidableEq κ] [LT κ] [DecidableLT κ] in
theorem mem_filterMap {β γ : Type} {m : List (κ × α)} {g : κ → Option β} {f : α → β → γ} {k : κ}
    {z : γ} (h : (k, z) ∈ m.filterMap fun e => (g e.1).map fun y => (e.1, f e.2 y)) :
    ∃ x y, (k, x) ∈ m ∧ g k = some y ∧ z = f x y := by
  obtain ⟨⟨l, x⟩, hx, he⟩ := List.mem_filterMap.mp h
  obtain ⟨y, hy, he⟩ := Option.map_eq_some_iff.mp he
  obtain ⟨rfl, rfl⟩ := Prod.mk.inj he
  exact ⟨x, y, hx, hy, rfl⟩

end Assoc

namespace Params

variable {α : Type} {merge : α → α → α} {p q : Params α}

/-- What a slot of a merge of two lists may carry. -/
inductive Merged (merge : α → α → α) (p q : Params α) : α → Prop
  | left {x : α} (hx : x ∈ p.contents) : Merged merge p q x
  | right {y : α} (hy : y ∈ q.contents) : Merged merge p q y
  | both {x y : α} (hx : x ∈ p.contents) (hy : y ∈ q.contents) : Merged merge p q (merge x y)
  | crossed {x y : α} (hx : x ∈ p.contents) (hy : y ∈ q.contents) : Merged merge p q (merge y x)

theorem Merged.symm {z : α} (h : Merged merge q p z) : Merged merge p q z := by
  cases h with
  | left hx => exact .right hx
  | right hy => exact .left hy
  | both hx hy => exact .crossed hy hx
  | crossed hx hy => exact .both hy hx

theorem mem_contents_iff {x : α} :
    x ∈ p.contents ↔
      x ∈ p.fixed ∨ p.rest = some x ∨ (∃ k, (k, x) ∈ p.requiredKeywords) ∨
        (∃ k, (k, x) ∈ p.optionalKeywords) ∨ p.restKeywords = some x := by
  simp only [contents, fixed, Assoc.values, List.mem_append, List.mem_map, Option.mem_toList,
    Prod.exists, exists_eq_right, or_assoc]

theorem mem_contents_of_mem_requiredKeywords {k : Atom} {x : α}
    (h : (k, x) ∈ p.requiredKeywords) : x ∈ p.contents := by
  rw [mem_contents_iff]
  exact .inr (.inr (.inl ⟨k, h⟩))

theorem mem_contents_of_mem_optionalKeywords {k : Atom} {x : α}
    (h : (k, x) ∈ p.optionalKeywords) : x ∈ p.contents := by
  rw [mem_contents_iff]
  exact .inr (.inr (.inr (.inl ⟨k, h⟩)))

theorem mem_contents_of_keyword? {k : Atom} {x : α} (h : p.keyword? k = some x) :
    x ∈ p.contents := by
  rcases Option.or_eq_some_iff.mp h with h | ⟨_, h⟩
  · rcases Option.or_eq_some_iff.mp h with h | ⟨_, h⟩
    · exact mem_contents_of_mem_requiredKeywords (Assoc.mem_of_get?_eq_some h)
    · exact mem_contents_of_mem_optionalKeywords (Assoc.mem_of_get?_eq_some h)
  · exact mem_contents_of_restKeywords h

private theorem content_mem_of_mem_fixedSlots {s : Slot α} (h : s ∈ p.fixedSlots) :
    s.content ∈ p.contents := by
  rw [mem_contents_iff]
  refine .inl ?_
  rcases List.mem_append.mp h with h | h
  · obtain ⟨x, hx, rfl⟩ := List.mem_map.mp h
    exact List.mem_append_left _ hx
  · obtain ⟨x, hx, rfl⟩ := List.mem_map.mp h
    exact List.mem_append_right _ hx

private theorem content_mem_of_restSlot {s : Slot α} (h : p.restSlot = some s) :
    s.content ∈ p.contents := by
  obtain ⟨x, hx, rfl⟩ := Option.map_eq_some_iff.mp h
  exact mem_contents_iff.mpr (.inr (.inl hx))

theorem content_mem_of_mem_positions {s t : Option (Slot α)} (h : (s, t) ∈ positions p q) :
    (∀ x ∈ s, x.content ∈ p.contents) ∧ ∀ y ∈ t, y.content ∈ q.contents := by
  have hslot : ∀ (r : Params α) (u : Option (Slot α)), (∀ x ∈ u, x ∈ r.fixedSlots) →
      ∀ x ∈ u.or r.restSlot, x.content ∈ r.contents := by
    intro r u hu x hx
    rcases Option.or_eq_some_iff.mp hx with hx | ⟨_, hx⟩
    · exact content_mem_of_mem_fixedSlots (hu x hx)
    · exact content_mem_of_restSlot hx
  rcases List.mem_append.mp h with h | h
  · obtain ⟨i, hi⟩ := List.mem_iff_getElem?.mp h
    rw [List.getElem?_zipWithAll] at hi
    have hp : ∀ x ∈ p.fixedSlots[i]?, x ∈ p.fixedSlots := fun x => List.mem_of_getElem?
    have hq : ∀ y ∈ q.fixedSlots[i]?, y ∈ q.fixedSlots := fun y => List.mem_of_getElem?
    -- where one list has no more fixed slots, its rest slot stands
    have hpair : (p.fixedSlots[i]?.or p.restSlot, q.fixedSlots[i]?.or q.restSlot) = (s, t) := by
      cases hs : p.fixedSlots[i]? with
      | some x => simpa [hs] using hi
      | none =>
          cases ht : q.fixedSlots[i]? with
          | some y => simpa [hs, ht] using hi
          | none => simp [hs, ht] at hi
    obtain ⟨rfl, rfl⟩ := Prod.mk.inj hpair
    exact ⟨hslot p _ hp, hslot q _ hq⟩
  · obtain ⟨rfl, rfl⟩ := Prod.mk.inj (List.mem_singleton.mp h)
    exact ⟨fun x => content_mem_of_restSlot, fun y => content_mem_of_restSlot⟩

theorem mem_contents_ofSlots {slots : List (Slot α)} {x : α} (h : x ∈ (ofSlots slots).contents) :
    ∃ s ∈ slots, s.content = x := by
  rw [mem_contents_iff] at h
  rcases h with h | h | ⟨k, h⟩ | ⟨k, h⟩ | h
  · rcases List.mem_append.mp h with h | h
    · obtain ⟨s, hs, rfl⟩ := List.mem_map.mp h
      exact ⟨s, (List.mem_filter.mp hs).1, rfl⟩
    · obtain ⟨s, hs, rfl⟩ := List.mem_map.mp h
      exact ⟨s, (List.mem_filter.mp hs).1, rfl⟩
  · obtain ⟨s, hs, rfl⟩ := Option.map_eq_some_iff.mp h
    exact ⟨s, List.mem_of_find?_eq_some hs, rfl⟩
  · exact absurd h List.not_mem_nil
  · exact absurd h List.not_mem_nil
  · cases h

theorem merged_of_mem_unionSlots {s : Slot α} (h : s ∈ unionSlots merge p q) :
    Merged merge p q s.content := by
  obtain ⟨⟨x, y⟩, hxy, hs⟩ := List.mem_filterMap.mp h
  obtain ⟨hx, hy⟩ := content_mem_of_mem_positions hxy
  cases x with
  | none =>
      cases y with
      | none => cases hs
      | some y =>
          obtain rfl := Option.some.inj hs
          exact .right (hy y rfl)
  | some x =>
      cases y with
      | none =>
          obtain rfl := Option.some.inj hs
          exact .left (hx x rfl)
      | some y =>
          obtain rfl := Option.some.inj hs
          exact .both (hx x rfl) (hy y rfl)

theorem merged_of_mem_interSlots {s : Slot α} (h : s ∈ interSlots merge p q) :
    Merged merge p q s.content := by
  obtain ⟨⟨x, y⟩, hxy, hs⟩ := List.mem_filterMap.mp h
  obtain ⟨hx, hy⟩ := content_mem_of_mem_positions hxy
  cases x with
  | none => cases hs
  | some x =>
      cases y with
      | none => cases hs
      | some y =>
          obtain rfl := Option.some.inj hs
          exact .both (hx x rfl) (hy y rfl)

theorem merged_of_mem_offered {k : Atom} {z : α} (h : (k, z) ∈ offered merge p q) :
    Merged merge p q z := by
  obtain ⟨⟨l, x⟩, hlx, hz⟩ := List.mem_map.mp h
  obtain ⟨rfl, rfl⟩ := Prod.mk.inj hz
  have hx : x ∈ p.contents :=
    (List.mem_append.mp hlx).elim mem_contents_of_mem_requiredKeywords
      mem_contents_of_mem_optionalKeywords
  dsimp only
  cases hy : q.keyword? l with
  | none => exact .left hx
  | some y => exact .both hx (mem_contents_of_keyword? hy)

/-- What the slots of a merge for either list carry. -/
theorem mem_contents_unionWith {z : α} (h : z ∈ (unionWith merge p q).contents) :
    Merged merge p q z := by
  have hslots : ∀ z ∈ (ofSlots (unionSlots merge p q)).contents, Merged merge p q z := by
    intro z hz
    obtain ⟨s, hs, rfl⟩ := mem_contents_ofSlots hz
    exact merged_of_mem_unionSlots hs
  rw [mem_contents_iff] at h
  rcases h with h | h | ⟨k, h⟩ | ⟨k, h⟩ | h
  · exact hslots z (mem_contents_iff.mpr (.inl h))
  · exact hslots z (mem_contents_iff.mpr (.inr (.inl h)))
  · obtain ⟨x, y, hx, hy, rfl⟩ :=
      Assoc.mem_filterMap (g := fun k => Assoc.get? k q.requiredKeywords) h
    exact .both (mem_contents_of_mem_requiredKeywords hx)
      (mem_contents_of_mem_requiredKeywords (Assoc.mem_of_get?_eq_some hy))
  · rcases List.mem_append.mp (List.mem_filter.mp (Assoc.mem_of_mem_ofFirsts h)).1 with h | h
    · exact merged_of_mem_offered h
    · exact (merged_of_mem_offered h).symm
  · have hrest : Option.merge merge p.restKeywords q.restKeywords = some z := h
    cases hp : p.restKeywords with
    | none =>
        rw [hp, Option.merge_none_left] at hrest
        exact .right (mem_contents_of_restKeywords hrest)
    | some x =>
        cases hq : q.restKeywords with
        | none =>
            rw [hp, hq, Option.merge_none_right] at hrest
            obtain rfl := Option.some.inj hrest
            exact .left (mem_contents_of_restKeywords hp)
        | some y =>
            rw [hp, hq] at hrest
            obtain rfl := Option.some.inj hrest
            exact .both (mem_contents_of_restKeywords hp) (mem_contents_of_restKeywords hq)

theorem merged_of_mem_granted {k : Atom} {z : α} (h : (k, z) ∈ granted merge p q) :
    Merged merge p q z := by
  obtain ⟨x, y, hx, hy, rfl⟩ := Assoc.mem_filterMap (g := q.keyword?) h
  exact .both (mem_contents_of_mem_requiredKeywords hx) (mem_contents_of_keyword? hy)

theorem merged_of_mem_spared {k : Atom} {z : α} (h : (k, z) ∈ spared merge p q) :
    Merged merge p q z := by
  obtain ⟨x, y, hx, hy, rfl⟩ := Assoc.mem_filterMap
    (g := fun k => (Assoc.get? k q.optionalKeywords).or q.restKeywords) h
  refine .both (mem_contents_of_mem_optionalKeywords hx) ?_
  rcases Option.or_eq_some_iff.mp hy with hy | ⟨_, hy⟩
  · exact mem_contents_of_mem_optionalKeywords (Assoc.mem_of_get?_eq_some hy)
  · exact mem_contents_of_restKeywords hy

/-- What the slots of a merge for both lists carry. -/
theorem mem_contents_interWith {z : α} (h : z ∈ (interWith merge p q).contents) :
    Merged merge p q z := by
  have hslots : ∀ z ∈ (ofSlots (interSlots merge p q)).contents, Merged merge p q z := by
    intro z hz
    obtain ⟨s, hs, rfl⟩ := mem_contents_ofSlots hz
    exact merged_of_mem_interSlots hs
  rw [mem_contents_iff] at h
  rcases h with h | h | ⟨k, h⟩ | ⟨k, h⟩ | h
  · exact hslots z (mem_contents_iff.mpr (.inl h))
  · exact hslots z (mem_contents_iff.mpr (.inr (.inl h)))
  · rcases List.mem_append.mp (Assoc.mem_of_mem_ofFirsts h) with h | h
    · exact merged_of_mem_granted h
    · exact (merged_of_mem_granted h).symm
  · rcases List.mem_append.mp (List.mem_filter.mp (Assoc.mem_of_mem_ofFirsts h)).1 with h | h
    · exact merged_of_mem_spared h
    · exact (merged_of_mem_spared h).symm
  · obtain ⟨x, hx, hxy⟩ := Option.bind_eq_some_iff.mp h
    obtain ⟨y, hy, rfl⟩ := Option.map_eq_some_iff.mp hxy
    exact .both (mem_contents_of_restKeywords hx) (mem_contents_of_restKeywords hy)

/-! ## What holds of all contents -/

/-- Whether something holds of what each slot carries. -/
def All (P : α → Prop) (p : Params α) : Prop := ∀ x ∈ p.contents, P x

theorem all_map {β : Type} {f : α → β} {P : β → Prop} (h : p.All fun x => P (f x)) :
    (p.map f).All P := by
  intro y hy
  rw [contents_map] at hy
  obtain ⟨x, hx, rfl⟩ := List.mem_map.mp hy
  exact h x hx

variable {P : α → Prop} (hmerge : ∀ {x y}, P x → P y → P (merge x y))
include hmerge

theorem all_of_merged (hp : p.All P) (hq : q.All P) {z : α} (h : Merged merge p q z) : P z := by
  cases h with
  | left hx => exact hp _ hx
  | right hy => exact hq _ hy
  | both hx hy => exact hmerge (hp _ hx) (hq _ hy)
  | crossed hx hy => exact hmerge (hq _ hy) (hp _ hx)

theorem all_unionWith (hp : p.All P) (hq : q.All P) : (unionWith merge p q).All P := by
  intro z hz
  exact all_of_merged hmerge hp hq (mem_contents_unionWith hz)

theorem all_interWith? {r : Params α} (hp : p.All P) (hq : q.All P)
    (hr : interWith? merge p q = some r) : r.All P := by
  obtain ⟨_, rfl⟩ := (interWith?_eq_some_iff merge p q r).mp hr
  exact fun _ hz => all_of_merged hmerge hp hq (mem_contents_interWith hz)

end Params

/-- Whether what holds of two types holds of their union and of their intersection. -/
structure Ty.CarriesOver (P : Ty → Prop) : Prop where
  or : ∀ {t u}, P t → P u → P (t.or u)
  and : ∀ {t u}, P t → P u → P (t.and u)

namespace Params

variable {P : Ty → Prop} (hP : Ty.CarriesOver P) {p q r : Params Ty}
include hP

theorem all_union (hp : p.All P) (hq : q.All P) : (p.union q).All P := all_unionWith hP.or hp hq

theorem all_inter? (hp : p.All P) (hq : q.All P) (hr : p.inter? q = some r) : r.All P :=
  all_interWith? (P := P) hP.and hp hq hr

end Params

end Subtyping
