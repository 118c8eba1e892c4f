import Subtyping.Params.CallShape
import Subtyping.Params.Pairing

/-!
# Lists that fit

Whether two parameter lists have pairs is a matter of their shapes (`pairs?_ne_none_iff`). A list
that fits another takes every call of the other that has enough positional arguments for it and no
keyword that only a slot for all other keywords would take (`Fits.accepts`), and a list that takes
every call of another fits it (`fits_of_accepts`).
-/

namespace Subtyping.Params

variable {α : Type}

/-- The shape of one list leaves room for every slot through which the other passes an argument, and
asks for nothing that the other does not ask for. -/
structure Fits (p q : Params α) : Prop where
  enough : p.rest = none → p.required.length ≤ q.fixedSize
  room : p.rest = none → q.rest = none ∧ q.fixedSize ≤ p.fixedSize
  given : ∀ k ∈ Assoc.keys p.requiredKeywords, k ∈ Assoc.keys q.requiredKeywords
  known : ∀ k ∈ Assoc.keys q.namedKeywords, p.keyword? k ≠ none

theorem get?_namedKeywords_eq_none_iff (p : Params α) (k : Atom) :
    Assoc.get? k p.namedKeywords = none ↔
      Assoc.get? k p.requiredKeywords = none ∧ Assoc.get? k p.optionalKeywords = none := by
  have hreverse : Assoc.get? k p.requiredKeywords.reverse = none ↔
      Assoc.get? k p.requiredKeywords = none := by
    rw [Assoc.get?_eq_none_iff, Assoc.get?_eq_none_iff, Assoc.keys, List.map_reverse,
      List.mem_reverse]
    rfl
  rw [namedKeywords, Assoc.get?_foldl_insert, Option.or_eq_none_iff, hreverse]

theorem keyword?_eq_none_iff (p : Params α) (k : Atom) :
    p.keyword? k = none ↔ Assoc.get? k p.namedKeywords = none ∧ p.restKeywords = none := by
  rw [keyword?, Option.or_eq_none_iff, Option.or_eq_none_iff, get?_namedKeywords_eq_none_iff]

theorem positionalPairs?_ne_none_iff (p q : Params α) :
    positionalPairs? p q ≠ none ↔
      (p.rest = none → p.required.length ≤ q.fixedSize) ∧
        (p.rest = none → q.rest = none ∧ q.fixedSize ≤ p.fixedSize) := by
  unfold positionalPairs?
  cases p.rest <;> cases q.rest <;> simp

private theorem mapM_ne_none_iff {β γ : Type} {f : β → Option γ} {xs : List β} :
    xs.mapM f ≠ none ↔ ∀ x ∈ xs, f x ≠ none := by
  induction xs with
  | nil => simp
  | cons x xs ih =>
      rw [List.forall_mem_cons, ← ih, List.mapM_cons]
      cases f x <;> cases xs.mapM f <;> simp

theorem keywordPairs?_ne_none_iff (p q : Params α) :
    keywordPairs? p q ≠ none ↔
      (∀ k ∈ Assoc.keys p.requiredKeywords, k ∈ Assoc.keys q.requiredKeywords) ∧
        ∀ k ∈ Assoc.keys q.namedKeywords, p.keyword? k ≠ none := by
  have hgiven : (p.requiredKeywords.all fun e => Assoc.has e.1 q.requiredKeywords) = true ↔
      ∀ k ∈ Assoc.keys p.requiredKeywords, k ∈ Assoc.keys q.requiredKeywords := by
    have hhas : ∀ k, Assoc.has k q.requiredKeywords = true ↔ k ∈ Assoc.keys q.requiredKeywords := by
      intro k
      rw [Assoc.has, Option.isSome_iff_ne_none, Ne, Assoc.get?_eq_none_iff, Decidable.not_not]
    rw [List.all_eq_true, Assoc.keys, List.forall_mem_map]
    exact forall₂_congr fun e _ => hhas e.1
  have hslot : ∀ e : Atom × α,
      (((Assoc.get? e.1 p.namedKeywords).or p.restKeywords).map fun x => (x, e.2)) ≠ none ↔
        p.keyword? e.1 ≠ none := by
    intro e
    rw [Ne, Option.map_eq_none_iff, Option.or_eq_none_iff, Ne, keyword?_eq_none_iff]
  unfold keywordPairs?
  split
  next hall =>
    rw [Ne, Option.map_eq_none_iff, ← Ne, mapM_ne_none_iff, and_iff_right (hgiven.mp hall),
      Assoc.keys, List.forall_mem_map]
    exact forall₂_congr fun e _ => hslot e
  next hall => exact iff_of_false (fun h => h rfl) fun h => hall (hgiven.mpr h.1)

theorem pairs?_ne_none_iff (p q : Params α) : p.pairs? q ≠ none ↔ p.Fits q := by
  have hpairs : p.pairs? q ≠ none ↔ positionalPairs? p q ≠ none ∧ keywordPairs? p q ≠ none := by
    rw [pairs?]
    cases positionalPairs? p q <;> cases keywordPairs? p q <;> simp
  rw [hpairs, positionalPairs?_ne_none_iff, keywordPairs?_ne_none_iff]
  constructor
  · rintro ⟨⟨henough, hroom⟩, hgiven, hknown⟩
    exact ⟨henough, hroom, hgiven, hknown⟩
  · rintro ⟨henough, hroom, hgiven, hknown⟩
    exact ⟨⟨henough, hroom⟩, hgiven, hknown⟩

theorem Fits.accepts {p q : Params α} (h : p.Fits q) {call : CallShape} (hq : q.Accepts call)
    (henough : p.required.length ≤ call.positional)
    (hknown : ∀ k ∈ call.keywords, k ∉ Assoc.keys q.namedKeywords → p.keyword? k ≠ none) :
    p.Accepts call where
  enough := henough
  room hp := by
    obtain ⟨hrest, hsize⟩ := h.room hp
    exact Nat.le_trans (hq.room hrest) hsize
  given k hk := hq.given k (h.given k hk)
  known k hk := by
    by_cases hnamed : k ∈ Assoc.keys q.namedKeywords
    · exact h.known k hnamed
    · exact hknown k hk hnamed

/-! ## Calls of a list -/

theorem keyword?_ne_none_of_required {p : Params α} {k : Atom}
    (h : k ∈ Assoc.keys p.requiredKeywords) : p.keyword? k ≠ none := by
  rw [Ne, keyword?_eq_none_iff, get?_namedKeywords_eq_none_iff]
  exact fun hnone => (Assoc.get?_eq_none_iff _ k).mp hnone.1.1 h

/-- The call with so many positional arguments and some keywords, and with what is required besides. -/
def callWith (p : Params α) (n : Nat) (extra : List Atom) : CallShape :=
  ⟨max n p.required.length, extra ++ Assoc.keys p.requiredKeywords⟩

theorem accepts_callWith {p : Params α} {n : Nat} {extra : List Atom}
    (hroom : p.rest = none → n ≤ p.fixedSize) (hextra : ∀ k ∈ extra, p.keyword? k ≠ none) :
    p.Accepts (p.callWith n extra) where
  enough := Nat.le_max_right _ _
  room hrest := Nat.max_le.mpr ⟨hroom hrest, Nat.le_add_right _ _⟩
  given _ hk := List.mem_append_right _ hk
  known k hk := by
    rcases List.mem_append.mp hk with hk | hk
    · exact hextra k hk
    · exact keyword?_ne_none_of_required hk

/-- A list that takes every call of another fits it. -/
theorem fits_of_accepts {p q : Params α} (h : ∀ call, q.Accepts call → p.Accepts call) :
    p.Fits q := by
  have hfull : p.Accepts (q.callWith q.fixedSize []) :=
    h _ (accepts_callWith (fun _ => Nat.le_refl _) (by simp))
  have hsize : (q.callWith q.fixedSize []).positional = q.fixedSize :=
    Nat.max_eq_left (Nat.le_add_right _ _)
  refine ⟨fun _ => hsize ▸ hfull.enough, fun hp => ⟨?_, hsize ▸ hfull.room hp⟩, ?_, ?_⟩
  · cases hq : q.rest with
    | none => rfl
    | some y =>
        -- one argument more than the first list has slots for
        have hlong : p.Accepts (q.callWith (p.fixedSize + 1) []) :=
          h _ (accepts_callWith (by simp [hq]) (by simp))
        have hle : max (p.fixedSize + 1) q.required.length ≤ p.fixedSize := hlong.room hp
        omega
  · exact fun k hk => by simpa [callWith] using hfull.given k hk
  · intro k hk
    have hknown : q.keyword? k ≠ none := by
      rw [Ne, keyword?_eq_none_iff, Assoc.get?_eq_none_iff]
      exact fun hnone => hnone.1 hk
    have hone : p.Accepts (q.callWith 0 [k]) :=
      h _ (accepts_callWith (fun _ => Nat.zero_le _) (by simpa using hknown))
    exact hone.known k (List.mem_append_left _ (List.mem_singleton_self k))

end Subtyping.Params
