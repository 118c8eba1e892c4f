import Subtyping.Assoc.Basic

/-!
# Order in association lists

Insertion keeps a table in ascending order, and a table in order is known by its answers: two of
them that answer every key alike are equal (`eq_of_get?_eq`).
-/

namespace Subtyping.Assoc

variable {κ α β : Type} [LT κ]

theorem isSorted_nil : IsSorted ([] : List (κ × α)) := List.Pairwise.nil

theorem isSorted_cons {k : κ} {x : α} {m : List (κ × α)} :
    IsSorted ((k, x) :: m) ↔ (∀ l ∈ keys m, k < l) ∧ IsSorted m := by
  simp only [IsSorted, keys, List.map_cons, List.pairwise_cons]

theorem IsSorted.mapValues {m : List (κ × α)} (h : IsSorted m) (f : α → β) :
    IsSorted (mapValues f m) := by
  simpa [IsSorted, Assoc.mapValues, Function.comp_def] using h

theorem IsSorted.filterMap {m : List (κ × α)} (h : IsSorted m) {f : κ × α → Option (κ × β)}
    (hf : ∀ e e', f e = some e' → e'.1 = e.1) : IsSorted (m.filterMap f) := by
  rw [IsSorted, List.pairwise_map] at h ⊢
  rw [List.pairwise_filterMap]
  refine h.imp fun {d e} hlt d' hd e' he => ?_
  rw [hf d d' hd, hf e e' he]
  exact hlt

section Insert

variable [DecidableEq κ] [DecidableLT κ]

theorem mem_keys_insert {k l : κ} {x : α} {m : List (κ × α)} :
    l ∈ keys (insert k x m) ↔ l = k ∨ l ∈ keys m := by
  have h := get?_insert m k l x
  have hm := get?_eq_none_iff m l
  have hi := get?_eq_none_iff (insert k x m) l
  by_cases hl : l = k
  · simp only [hl, if_true] at h hi ⊢
    simpa [h] using hi
  · simp only [if_neg hl] at h
    rw [h, hm] at hi
    simp [hl, Decidable.not_iff_not.mp hi]

variable [Trans (α := κ) (· < ·) (· < ·) (· < ·)] [Std.Trichotomous (α := κ) (· < ·)]

theorem IsSorted.insert {m : List (κ × α)} (h : IsSorted m) (k : κ) (x : α) :
    IsSorted (insert k x m) := by
  induction m with
  | nil => exact isSorted_cons.mpr ⟨fun l hl => absurd hl List.not_mem_nil, isSorted_nil⟩
  | cons e m ih =>
      rcases e with ⟨j, y⟩
      rcases isSorted_cons.mp h with ⟨hj, hm⟩
      by_cases hkj : k = j
      · subst hkj
        simpa [Assoc.insert] using isSorted_cons.mpr ⟨hj, hm⟩
      · by_cases hlt : k < j
        · have hk : ∀ l ∈ keys ((j, y) :: m), k < l := by
            intro l hl
            rcases List.mem_cons.mp hl with rfl | hl
            · exact hlt
            · exact Trans.trans hlt (hj l hl)
          simpa [Assoc.insert, hkj, hlt] using isSorted_cons.mpr ⟨hk, h⟩
        · have hjk : j < k :=
            Decidable.byContradiction fun hn => hkj (Std.Trichotomous.trichotomous k j hlt hn)
          have hl : ∀ l ∈ keys (Assoc.insert k x m), j < l := by
            intro l hl
            rcases mem_keys_insert.mp hl with rfl | hl
            · exact hjk
            · exact hj l hl
          simpa [Assoc.insert, hkj, hlt] using isSorted_cons.mpr ⟨hl, ih hm⟩

theorem isSorted_ofFirsts (es : List (κ × α)) : IsSorted (ofFirsts es) := by
  induction es with
  | nil => exact isSorted_nil
  | cons e es ih => exact ih.insert e.1 e.2

theorem IsSorted.foldl_insert {m : List (κ × α)} (h : IsSorted m) (es : List (κ × α)) :
    IsSorted (es.foldl (fun m e => Assoc.insert e.1 e.2 m) m) := by
  induction es generalizing m with
  | nil => exact h
  | cons e es ih => exact ih (h.insert e.1 e.2)

end Insert

section Ext

variable [Std.Asymm (α := κ) (· < ·)]

private theorem notMem_keys_of_isSorted {k : κ} {x : α} {m : List (κ × α)}
    (h : IsSorted ((k, x) :: m)) : k ∉ keys m := by
  intro hk
  have hlt := (isSorted_cons.mp h).1 k hk
  exact Std.Asymm.asymm k k hlt hlt

variable [DecidableEq κ]

theorem get?_eq_some_of_mem {k : κ} {x : α} {m : List (κ × α)} (h : IsSorted m)
    (hx : (k, x) ∈ m) : get? k m = some x := by
  induction m with
  | nil => exact absurd hx List.not_mem_nil
  | cons e m ih =>
      rcases List.mem_cons.mp hx with rfl | hx
      · exact if_pos rfl
      · have hne : k ≠ e.1 := by
          rintro rfl
          exact notMem_keys_of_isSorted h (List.mem_map.mpr ⟨_, hx, rfl⟩)
        rw [get?, if_neg hne]
        exact ih (isSorted_cons.mp h).2 hx

theorem get?_reverse {m : List (κ × α)} (h : IsSorted m) (k : κ) :
    get? k m.reverse = get? k m := by
  cases hk : get? k m.reverse with
  | some x => exact (get?_eq_some_of_mem h (List.mem_reverse.mp (mem_of_get?_eq_some hk))).symm
  | none =>
      rw [get?_eq_none_iff, keys, List.map_reverse, List.mem_reverse] at hk
      exact ((get?_eq_none_iff m k).mpr hk).symm

/-- Tables in order that answer every key alike are equal. -/
theorem eq_of_get?_eq {m n : List (κ × α)} (hm : IsSorted m) (hn : IsSorted n)
    (h : ∀ k, get? k m = get? k n) : m = n := by
  induction m generalizing n with
  | nil =>
      cases n with
      | nil => rfl
      | cons e n => simpa [get?] using h e.1
  | cons e m ih =>
      rcases e with ⟨k, x⟩
      cases n with
      | nil => simpa [get?] using h k
      | cons f n =>
          rcases f with ⟨l, y⟩
          have hk := notMem_keys_of_isSorted hm
          have hl := notMem_keys_of_isSorted hn
          obtain ⟨hkm, hm'⟩ := isSorted_cons.mp hm
          obtain ⟨hln, hn'⟩ := isSorted_cons.mp hn
          have hkl : k = l := by
            refine Decidable.byContradiction fun hne => ?_
            have hkn : k ∈ keys n := by
              have := h k
              simp only [get?, if_true, if_neg hne] at this
              refine Decidable.byContradiction fun hkn => ?_
              simp [(get?_eq_none_iff n k).mpr hkn] at this
            have hlm : l ∈ keys m := by
              have := h l
              simp only [get?, if_true, if_neg (Ne.symm hne)] at this
              refine Decidable.byContradiction fun hlm => ?_
              simp [(get?_eq_none_iff m l).mpr hlm] at this
            exact Std.Asymm.asymm k l (hkm l hlm) (hln k hkn)
          subst hkl
          have hxy : x = y := by simpa [get?] using h k
          subst hxy
          have hmn : m = n := by
            refine ih hm' hn' fun j => ?_
            by_cases hj : j = k
            · rw [hj, (get?_eq_none_iff m k).mpr hk, (get?_eq_none_iff n k).mpr hl]
            · simpa [get?, hj] using h j
          rw [hmn]

end Ext

end Subtyping.Assoc
