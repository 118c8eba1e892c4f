import Mathlib.Data.Option.NAry
import Subtyping.Params.CallShape
import Subtyping.Params.Merge

/-!
# Slots by position

A parameter list is known by what its slots carry position by position: the kind of a slot follows
from how many slots are required and how many are fixed (`slot?_eq`). When two lists are merged the
slots come out in this order as well (`Laid`), so a merge can be read off position by position:
`positional?_unionWith` and `positional?_interWith`.
-/

namespace Subtyping

/-- The kind of the slot at an index of a list that has so many required and so many fixed slots. -/
def SlotKind.ofIndex (required fixed i : Nat) : SlotKind :=
  if i < required then .required else if i < fixed then .optional else .rest

theorem SlotKind.ofIndex_succ (required fixed i : Nat) :
    ofIndex required fixed (i + 1) = ofIndex (required - 1) (fixed - 1) i := by
  have hr : i + 1 < required ↔ i < required - 1 := by omega
  have hf : i + 1 < fixed ↔ i < fixed - 1 := by omega
  simp only [ofIndex, hr, hf]

theorem SlotKind.union_ofIndex {r f r' f' i : Nat} (h : r ≤ f) (h' : r' ≤ f') :
    (ofIndex r f i).union (ofIndex r' f' i) = ofIndex (min r r') (max f f') i := by
  grind [ofIndex, SlotKind.union]

theorem SlotKind.inter_ofIndex (r f r' f' i : Nat) :
    (ofIndex r f i).inter (ofIndex r' f' i) = ofIndex (max r r') (max f f') i := by
  grind [ofIndex, SlotKind.inter]

theorem SlotKind.alone_ofIndex {r f r' f' i : Nat} (h : r ≤ f) (h' : r' ≤ f') (hi : f' ≤ i) :
    (ofIndex r f i).alone = ofIndex (min r r') (max f f') i := by
  grind [ofIndex, SlotKind.alone]

namespace Params

variable {α : Type}

/-- The slot that takes the positional argument at an index: a fixed one, else the rest slot. -/
def slot? (p : Params α) (i : Nat) : Option (Slot α) := p.fixedSlots[i]?.or p.restSlot

theorem slot?_eq (p : Params α) (i : Nat) :
    p.slot? i = (p.positional? i).map (Slot.mk (.ofIndex p.required.length p.fixedSize i)) := by
  unfold slot? positional? fixedSlots fixed restSlot fixedSize SlotKind.ofIndex
  rw [List.getElem?_append, List.getElem?_append, List.length_map]
  by_cases hr : i < p.required.length
  · simp [hr]
  · by_cases hf : i < p.required.length + p.optional.length
    · have ho : i - p.required.length < p.optional.length := by omega
      simp [hr, hf, ho]
    · have ho : p.optional.length ≤ i - p.required.length := by omega
      simp [hr, hf, ho]

theorem positional?_of_le {p : Params α} {i : Nat} (h : p.fixedSize ≤ i) :
    p.positional? i = p.rest := by
  have : p.fixed.length ≤ i := by rwa [length_fixed]
  simp [positional?, this]

theorem positional?_eq_none_iff (p : Params α) (i : Nat) :
    p.positional? i = none ↔ p.fixedSize ≤ i ∧ p.rest = none := by
  rw [positional?, Option.or_eq_none_iff, List.getElem?_eq_none_iff, length_fixed]

theorem positional?_eq_some_of_lt {p : Params α} {i : Nat} (h : i < p.required.length) :
    ∃ x, p.positional? i = some x := by
  apply Option.ne_none_iff_exists'.mp
  intro hnone
  have hle := ((positional?_eq_none_iff p i).mp hnone).1
  have hsize : p.required.length ≤ p.fixedSize := Nat.le_add_right _ _
  omega

theorem slot?_of_le {p : Params α} {i : Nat} (h : p.fixedSize ≤ i) : p.slot? i = p.restSlot := by
  have : p.fixedSlots.length ≤ i := by rwa [length_fixedSlots]
  simp [slot?, this]

theorem exists_slot?_iff (p : Params α) (i : Nat) :
    (∃ s ∈ p.slot? i, s.kind ≠ .rest) ↔ i < p.fixedSize := by
  have hsize : p.required.length ≤ p.fixedSize := Nat.le_add_right _ _
  have hkind : SlotKind.ofIndex p.required.length p.fixedSize i ≠ .rest ↔ i < p.fixedSize := by
    grind [SlotKind.ofIndex]
  rw [slot?_eq, ← hkind]
  constructor
  · rintro ⟨s, hs, hrest⟩
    obtain ⟨x, _, rfl⟩ := Option.map_eq_some_iff.mp hs
    exact hrest
  · intro h
    have hx : p.positional? i ≠ none := by
      rw [Ne, positional?_eq_none_iff]
      have := hkind.mp h
      omega
    obtain ⟨x, hx⟩ := Option.ne_none_iff_exists'.mp hx
    exact ⟨_, by rw [hx]; rfl, h⟩

theorem room_iff (p : Params α) (n : Nat) :
    (p.rest = none → n ≤ p.fixedSize) ↔ ∀ i < n, p.positional? i ≠ none := by
  constructor
  · intro hroom i hi hnone
    obtain ⟨hle, hrest⟩ := (positional?_eq_none_iff p i).mp hnone
    have := hroom hrest
    omega
  · intro hall hrest
    apply Nat.le_of_not_lt
    intro hlt
    exact hall p.fixedSize hlt ((positional?_eq_none_iff p _).mpr ⟨Nat.le_refl _, hrest⟩)

theorem accepts_iff_slots {p : Params α} {call : CallShape} :
    p.Accepts call ↔
      p.required.length ≤ call.positional ∧ (∀ i < call.positional, p.positional? i ≠ none) ∧
        (∀ k ∈ Assoc.keys p.requiredKeywords, k ∈ call.keywords) ∧
        ∀ k ∈ call.keywords, p.keyword? k ≠ none := by
  rw [accepts_iff, room_iff]

section Positions

variable (merge : α → α → α) (p q : Params α)

theorem getElem?_positions (i : Nat) :
    (positions p q)[i]? =
      if i ≤ max p.fixedSize q.fixedSize then some (p.slot? i, q.slot? i) else none := by
  have hlength : (List.zipWithAll (fun s t => (s.or p.restSlot, t.or q.restSlot)) p.fixedSlots
      q.fixedSlots).length = max p.fixedSize q.fixedSize := by
    rw [length_zipWithAll_eq, length_fixedSlots, length_fixedSlots]
  have hbeyond : ∀ r : Params α, r.fixedSize ≤ i → r.fixedSlots[i]? = none := by
    intro r hr
    rwa [List.getElem?_eq_none_iff, length_fixedSlots]
  rw [positions, List.getElem?_append, hlength]
  by_cases hlt : i < max p.fixedSize q.fixedSize
  · rw [if_pos hlt, if_pos (by omega), List.getElem?_zipWithAll]
    cases hp : p.fixedSlots[i]? with
    | some s => simp [slot?, hp]
    | none =>
        cases hq : q.fixedSlots[i]? with
        | some t => simp [slot?, hp, hq]
        | none =>
            rw [List.getElem?_eq_none_iff, length_fixedSlots] at hp hq
            omega
  · rw [if_neg hlt]
    by_cases hle : i ≤ max p.fixedSize q.fixedSize
    · have hlast : i - max p.fixedSize q.fixedSize = 0 := by omega
      rw [if_pos hle, hlast, slot?, slot?, hbeyond p (by omega), hbeyond q (by omega)]
      rfl
    · rw [if_neg hle, List.getElem?_eq_none_iff, List.length_singleton]
      omega

theorem getElem?_filterMap {β γ : Type} {f : β → Option γ} {xs : List β}
    (h : ∀ (i j : Nat) (x y : β), i ≤ j → xs[i]? = some x → xs[j]? = some y → f x = none →
      f y = none) (i : Nat) :
    (xs.filterMap f)[i]? = xs[i]?.bind f := by
  induction xs generalizing i with
  | nil => rfl
  | cons x xs ih =>
      have htail := ih fun i j x y hij hx hy => h (i + 1) (j + 1) x y (by omega) hx hy
      cases hx : f x with
      | some y =>
          rw [List.filterMap_cons_some hx]
          cases i with
          | zero => simp [hx]
          | succ i => simpa using htail i
      | none =>
          -- nothing comes of the first element, so nothing comes of the others
          have hnone : ∀ y ∈ xs, f y = none := by
            intro y hy
            obtain ⟨j, hj⟩ := List.mem_iff_getElem?.mp hy
            exact h 0 (j + 1) x y (Nat.zero_le _) rfl hj hx
          rw [List.filterMap_cons_none hx, List.filterMap_eq_nil_iff.mpr hnone]
          cases i with
          | zero => simp [hx]
          | succ i =>
              cases hi : xs[i]? with
              | none => simp [hi]
              | some y => simp [hi, hnone y (List.mem_of_getElem? hi)]

end Positions

theorem ofSlots_eq {slots : List (Slot α)} {required fixed : Nat} (hle : required ≤ fixed)
    (hkind : ∀ (i : Nat) s, slots[i]? = some s → s.kind = .ofIndex required fixed i) :
    ofSlots slots =
      { required := (slots.take required).map (·.content)
        optional := ((slots.take fixed).drop required).map (·.content)
        rest := slots[fixed]?.map (·.content) } := by
  induction slots generalizing required fixed with
  | nil => simp [ofSlots]
  | cons s slots ih =>
      have hhead : s.kind = .ofIndex required fixed 0 := hkind 0 s rfl
      have htail := ih (Nat.sub_le_sub_right hle 1) fun i t ht => by
        rw [hkind (i + 1) t ht, SlotKind.ofIndex_succ]
      clear hkind ih
      simp only [ofSlots, mk.injEq, and_true] at htail ⊢
      obtain ⟨hrequired, hoptional, hrest⟩ := htail
      cases required with
      | succ required =>
          obtain ⟨fixed, rfl⟩ : ∃ n, fixed = n + 1 := ⟨fixed - 1, by omega⟩
          have hs : s.kind = .required := by simpa [SlotKind.ofIndex] using hhead
          clear hhead
          simp_all
      | zero =>
          cases fixed with
          | succ fixed =>
              have hs : s.kind = .optional := by simpa [SlotKind.ofIndex] using hhead
              clear hhead
              simp_all
          | zero =>
              have hs : s.kind = .rest := by simpa [SlotKind.ofIndex] using hhead
              clear hhead
              simp_all

/-- The slots carry what is said, up to the rest slot, and come in order. -/
structure Laid (slots : List (Slot α)) (required fixed : Nat) (content : Nat → Option α) :
    Prop where
  required_le : required ≤ fixed
  getElem? : ∀ i : Nat, slots[i]? =
    if i ≤ fixed then (content i).map (Slot.mk (.ofIndex required fixed i)) else none
  beyond : ∀ i, fixed ≤ i → content i = content fixed

namespace Laid

variable {slots : List (Slot α)} {required fixed : Nat} {content : Nat → Option α}

theorem map_content_getElem? (h : Laid slots required fixed content) {i : Nat} (hi : i ≤ fixed) :
    slots[i]?.map (·.content) = content i := by
  rw [h.getElem?, if_pos hi, Option.map_map]
  exact Option.map_id'

theorem ofSlots_eq (h : Laid slots required fixed content) :
    ofSlots slots =
      { required := (slots.take required).map (·.content)
        optional := ((slots.take fixed).drop required).map (·.content)
        rest := content fixed } := by
  rw [← h.map_content_getElem? (Nat.le_refl fixed)]
  apply Params.ofSlots_eq h.required_le
  intro i s hs
  rw [h.getElem?] at hs
  split at hs
  · obtain ⟨x, _, rfl⟩ := Option.map_eq_some_iff.mp hs
    rfl
  · exact absurd hs (by simp)

theorem rest_eq (h : Laid slots required fixed content) : (ofSlots slots).rest = content fixed := by
  rw [h.ofSlots_eq]

theorem eq_none_of_le (h : Laid slots required fixed content) {i j : Nat} (hij : i ≤ j)
    (hi : content i = none) : content j = none := by
  have hsmall : ∀ k ≤ fixed, i ≤ k → content k = none := by
    intro k hk hik
    have hlength : slots.length ≤ i := by
      rw [← List.getElem?_eq_none_iff, ← Option.map_eq_none_iff (f := (·.content)),
        h.map_content_getElem? (by omega), hi]
    rw [← h.map_content_getElem? hk, Option.map_eq_none_iff, List.getElem?_eq_none_iff]
    omega
  by_cases hj : j ≤ fixed
  · exact hsmall j hj hij
  · rw [h.beyond j (by omega)]
    by_cases hif : i ≤ fixed
    · exact hsmall fixed (Nat.le_refl _) hif
    · rw [← h.beyond i (by omega), hi]

theorem fixed_eq (h : Laid slots required fixed content) :
    (ofSlots slots).fixed = (slots.take fixed).map (·.content) := by
  have htake : (slots.take fixed).take required = slots.take required := by
    rw [List.take_take, Nat.min_eq_left h.required_le]
  rw [h.ofSlots_eq, Params.fixed, ← List.map_append, ← htake, List.take_append_drop]

theorem positional?_eq (h : Laid slots required fixed content) (i : Nat) :
    (ofSlots slots).positional? i = content i := by
  rw [positional?, h.fixed_eq, h.rest_eq, List.getElem?_map]
  by_cases hi : i < fixed
  · rw [List.getElem?_take_of_lt hi, h.map_content_getElem? (by omega)]
    cases hc : content i with
    | some x => rfl
    | none => exact h.eq_none_of_le (by omega) hc
  · rw [List.getElem?_eq_none (by simp; omega), h.beyond i (by omega)]
    rfl

theorem le_length {n : Nat} (h : Laid slots required fixed content) (hn : n ≤ fixed)
    (hfull : ∀ i < n, content i ≠ none) : n ≤ slots.length := by
  apply Nat.le_of_not_lt
  intro hlt
  apply hfull slots.length hlt
  rw [← h.map_content_getElem? (by omega), List.getElem?_eq_none (Nat.le_refl _)]
  rfl

theorem length_required (h : Laid slots required fixed content)
    (hfull : ∀ i < required, content i ≠ none) : (ofSlots slots).required.length = required := by
  have hle := h.le_length h.required_le hfull
  rw [h.ofSlots_eq]
  simp [hle]

theorem fixedSize_eq (h : Laid slots required fixed content)
    (hfull : ∀ i < fixed, content i ≠ none) : (ofSlots slots).fixedSize = fixed := by
  have hle := h.le_length (Nat.le_refl fixed) hfull
  rw [← length_fixed, h.fixed_eq]
  simp [hle]

end Laid

section Merged

variable (merge : α → α → α) (p q : Params α)

theorem positional?_eq_none_of_le {p : Params α} {i j : Nat} (hij : i ≤ j)
    (h : p.positional? i = none) : p.positional? j = none := by
  obtain ⟨hi, hrest⟩ := (positional?_eq_none_iff p i).mp h
  rw [positional?_eq_none_iff]
  exact ⟨by omega, hrest⟩

theorem union?_slots (i : Nat) :
    Slot.union? merge (p.slot? i, q.slot? i) =
      (Option.merge merge (p.positional? i) (q.positional? i)).map
        (Slot.mk (.ofIndex (min p.required.length q.required.length)
          (max p.fixedSize q.fixedSize) i)) := by
  have hp : p.required.length ≤ p.fixedSize := Nat.le_add_right _ _
  have hq : q.required.length ≤ q.fixedSize := Nat.le_add_right _ _
  rw [slot?_eq, slot?_eq]
  cases hpi : p.positional? i with
  | some x =>
      cases hqi : q.positional? i with
      | some y => simp [Slot.union?, SlotKind.union_ofIndex hp hq]
      | none =>
          have hle := ((positional?_eq_none_iff q i).mp hqi).1
          simp [Slot.union?, SlotKind.alone_ofIndex hp hq hle]
  | none =>
      cases hqi : q.positional? i with
      | some y =>
          have hle := ((positional?_eq_none_iff p i).mp hpi).1
          rw [Nat.min_comm, Nat.max_comm]
          simp [Slot.union?, SlotKind.alone_ofIndex hq hp hle]
      | none => rfl

theorem inter?_slots (i : Nat) :
    Slot.inter? merge (p.slot? i, q.slot? i) =
      (Option.map₂ merge (p.positional? i) (q.positional? i)).map
        (Slot.mk (.ofIndex (max p.required.length q.required.length)
          (max p.fixedSize q.fixedSize) i)) := by
  rw [slot?_eq, slot?_eq]
  cases p.positional? i with
  | some x =>
      cases q.positional? i with
      | some y => simp [Slot.inter?, SlotKind.inter_ofIndex]
      | none => rfl
  | none => cases q.positional? i <;> rfl

/-- What comes of the contents at each position comes in order, if nothing comes after nothing. -/
theorem laid_filterMap_positions {f : Option (Slot α) × Option (Slot α) → Option (Slot α)}
    {required : Nat} {g : Option α → Option α → Option α}
    (hle : required ≤ max p.fixedSize q.fixedSize)
    (hnone : ∀ x y x' y', (x = none → x' = none) → (y = none → y' = none) → g x y = none →
      g x' y' = none)
    (hf : ∀ i, f (p.slot? i, q.slot? i) = (g (p.positional? i) (q.positional? i)).map
      (Slot.mk (.ofIndex required (max p.fixedSize q.fixedSize) i))) :
    Laid ((positions p q).filterMap f) required (max p.fixedSize q.fixedSize)
      fun i => g (p.positional? i) (q.positional? i) := by
  refine ⟨hle, fun i => ?_, fun i hi => ?_⟩
  · rw [getElem?_filterMap, getElem?_positions]
    · split
      · exact hf i
      · rfl
    · intro i j s t hij hi hj hs
      rw [getElem?_positions] at hi hj
      split at hi <;> split at hj <;> simp only [reduceCtorEq, Option.some.injEq] at hi hj
      subst hi hj
      rw [hf, Option.map_eq_none_iff] at hs ⊢
      exact hnone _ _ _ _ (positional?_eq_none_of_le hij) (positional?_eq_none_of_le hij) hs
  · have hp : p.fixedSize ≤ i := by omega
    have hq : q.fixedSize ≤ i := by omega
    simp only [positional?_of_le hp, positional?_of_le hq, positional?_of_le (Nat.le_max_left ..),
      positional?_of_le (Nat.le_max_right ..)]

theorem laid_unionSlots :
    Laid (unionSlots merge p q) (min p.required.length q.required.length)
      (max p.fixedSize q.fixedSize)
      fun i => Option.merge merge (p.positional? i) (q.positional? i) := by
  have hp : p.required.length ≤ p.fixedSize := Nat.le_add_right _ _
  apply laid_filterMap_positions p q (by omega)
  · intro x y x' y' hx hy h
    rw [Option.merge_eq_none_iff] at h ⊢
    exact ⟨hx h.1, hy h.2⟩
  · exact union?_slots merge p q

theorem laid_interSlots :
    Laid (interSlots merge p q) (max p.required.length q.required.length)
      (max p.fixedSize q.fixedSize)
      fun i => Option.map₂ merge (p.positional? i) (q.positional? i) := by
  have hp : p.required.length ≤ p.fixedSize := Nat.le_add_right _ _
  have hq : q.required.length ≤ q.fixedSize := Nat.le_add_right _ _
  apply laid_filterMap_positions p q (by omega)
  · intro x y x' y' hx hy h
    rw [Option.map₂_eq_none_iff] at h ⊢
    exact h.imp hx hy
  · exact inter?_slots merge p q

theorem positional?_unionWith (i : Nat) :
    (unionWith merge p q).positional? i =
      Option.merge merge (p.positional? i) (q.positional? i) :=
  (laid_unionSlots merge p q).positional?_eq i

theorem length_required_unionWith :
    (unionWith merge p q).required.length = min p.required.length q.required.length := by
  apply (laid_unionSlots merge p q).length_required
  intro i hi hnone
  obtain ⟨x, hx⟩ := positional?_eq_some_of_lt (p := p) (i := i) (by omega)
  rw [Option.merge_eq_none_iff, hx] at hnone
  exact absurd hnone.1 (Option.some_ne_none x)

theorem clash_slots (i : Nat) :
    Slot.clash (p.slot? i, q.slot? i) = true ↔
      (i < p.required.length ∧ q.positional? i = none) ∨
        (i < q.required.length ∧ p.positional? i = none) := by
  have hrequired : ∀ r f : Nat, SlotKind.ofIndex r f i = .required ↔ i < r := by
    intro r f
    rw [SlotKind.ofIndex]
    split
    · simp [*]
    · split <;> simp [*]
  have hp : p.positional? i = none → ¬i < p.required.length := by
    intro hnone hlt
    obtain ⟨x, hx⟩ := positional?_eq_some_of_lt hlt
    simp [hnone] at hx
  have hq : q.positional? i = none → ¬i < q.required.length := by
    intro hnone hlt
    obtain ⟨x, hx⟩ := positional?_eq_some_of_lt hlt
    simp [hnone] at hx
  rw [slot?_eq, slot?_eq]
  cases hpi : p.positional? i <;> cases hqi : q.positional? i <;>
    simp_all [Slot.clash]

theorem all_not_clash_iff :
    (positions p q).all (fun s => !Slot.clash s) = true ↔
      (∀ i < p.required.length, q.positional? i ≠ none) ∧
        ∀ i < q.required.length, p.positional? i ≠ none := by
  have hall : (positions p q).all (fun s => !Slot.clash s) = true ↔
      ∀ i ≤ max p.fixedSize q.fixedSize, ¬Slot.clash (p.slot? i, q.slot? i) = true := by
    rw [List.all_eq_true]
    constructor
    · intro h i hi
      have hmem : (p.slot? i, q.slot? i) ∈ positions p q := by
        apply List.mem_of_getElem? (i := i)
        rw [getElem?_positions, if_pos hi]
      simpa using h _ hmem
    · intro h s hs
      obtain ⟨i, hi⟩ := List.mem_iff_getElem?.mp hs
      rw [getElem?_positions] at hi
      split at hi
      next hle =>
        rw [← Option.some.inj hi]
        simpa using h i hle
      next => simp at hi
  have hp : p.required.length ≤ p.fixedSize := Nat.le_add_right _ _
  have hq : q.required.length ≤ q.fixedSize := Nat.le_add_right _ _
  rw [hall]
  simp only [clash_slots, not_or, not_and]
  constructor
  · intro h
    exact ⟨fun i hi => (h i (by omega)).1 hi, fun i hi => (h i (by omega)).2 hi⟩
  · intro h i _
    exact ⟨h.1 i, h.2 i⟩

theorem positional?_interWith (i : Nat) :
    (interWith merge p q).positional? i = Option.map₂ merge (p.positional? i) (q.positional? i) :=
  (laid_interSlots merge p q).positional?_eq i

theorem length_required_interWith (hp : ∀ i < p.required.length, q.positional? i ≠ none)
    (hq : ∀ i < q.required.length, p.positional? i ≠ none) :
    (interWith merge p q).required.length = max p.required.length q.required.length := by
  apply (laid_interSlots merge p q).length_required
  intro i hi hnone
  rcases Option.map₂_eq_none_iff.mp hnone with hnone | hnone
  · apply hq i _ hnone
    have hle := ((positional?_eq_none_iff p i).mp hnone).1
    have hsize : p.required.length ≤ p.fixedSize := Nat.le_add_right _ _
    omega
  · apply hp i _ hnone
    have hle := ((positional?_eq_none_iff q i).mp hnone).1
    have hsize : q.required.length ≤ q.fixedSize := Nat.le_add_right _ _
    omega

end Merged

end Params

end Subtyping
