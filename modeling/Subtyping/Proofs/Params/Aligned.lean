import Subtyping.Assoc.Sorted
import Subtyping.Proofs.Params.Combine
import Subtyping.Proofs.Params.Pairing

/-!
# Lists beside their merge

Slots are paired when one and the same argument may go to either of them, unless it is a keyword that
the expected list does not name (`mem_pairs?_iff`). The merge for calls that either of two lists takes
fits both of them (`fits_unionWith`), and what it passes an argument to is the merge of what they pass
it to (`inlet?_unionWith`).
-/

namespace Subtyping

/-- What a parameter list may have a slot for: an argument, or all keywords that it does not name. -/
inductive Inlet
  | argument (a : Argument)
  | otherKeywords

namespace Params

variable {α β : Type}

/-- The content of the slot for an argument or for all other keywords. -/
def inlet? (p : Params α) : Inlet → Option α
  | .argument a => p.taker? a
  | .otherKeywords => p.restKeywords

section Map

variable (f : α → β) (p : Params α)

theorem positional?_map (i : Nat) : (p.map f).positional? i = (p.positional? i).map f := by
  have hrest : (p.map f).rest = p.rest.map f := rfl
  rw [positional?, positional?, fixed_map, hrest, List.getElem?_map, Option.map_or]

theorem inlet?_map (i : Inlet) : (p.map f).inlet? i = (p.inlet? i).map f := by
  cases i with
  | otherKeywords => rfl
  | argument a =>
      cases a with
      | positional i => exact positional?_map f p i
      | keyword k => exact keyword?_map f p k

theorem isSorted_map {p : Params α} (h : p.IsSorted) : (p.map f).IsSorted := by
  obtain ⟨hrequired, hoptional⟩ := h
  exact ⟨hrequired.mapValues f, hoptional.mapValues f⟩

theorem fits_map (g : α → β) (q : Params α) : (p.map f).Fits (q.map g) ↔ p.Fits q := by
  have hnone : (p.map f).rest = none ↔ p.rest = none := Option.map_eq_none_iff
  have hnone' : (q.map g).rest = none ↔ q.rest = none := Option.map_eq_none_iff
  have hlength : (p.map f).required.length = p.required.length := List.length_map f
  have hkeys : Assoc.keys (p.map f).requiredKeywords = Assoc.keys p.requiredKeywords :=
    Assoc.keys_mapValues f _
  have hkeys' : Assoc.keys (q.map g).requiredKeywords = Assoc.keys q.requiredKeywords :=
    Assoc.keys_mapValues g _
  have hnamed : Assoc.keys (q.map g).namedKeywords = Assoc.keys q.namedKeywords := by
    rw [namedKeywords_map, Assoc.keys_mapValues]
  have hknown : ∀ k, (p.map f).keyword? k ≠ none ↔ p.keyword? k ≠ none := by
    intro k
    rw [keyword?_map, Ne, Option.map_eq_none_iff]
  constructor
  · rintro ⟨henough, hroom, hgiven, hknows⟩
    simp only [hnone, hnone', hlength, hkeys, hkeys', hnamed, hknown, fixedSize_map] at *
    exact ⟨henough, hroom, hgiven, hknows⟩
  · rintro ⟨henough, hroom, hgiven, hknows⟩
    refine ⟨?_, ?_, ?_, ?_⟩ <;>
      simpa only [hnone, hnone', hlength, hkeys, hkeys', hnamed, hknown, fixedSize_map]

end Map

section Pairs

variable {p q : Params α} {pairs : List (α × α)} {e : α × α}

theorem get?_namedKeywords (h : p.IsSorted) (k : Atom) :
    Assoc.get? k p.namedKeywords = p.named? k := by
  rw [namedKeywords, Assoc.get?_foldl_insert, Assoc.get?_reverse h.1, named?]

theorem mem_namedKeywords_iff (h : p.IsSorted) {k : Atom} {x : α} :
    (k, x) ∈ p.namedKeywords ↔ p.named? k = some x := by
  rw [← get?_namedKeywords h]
  exact ⟨Assoc.get?_eq_some_of_mem (h.2.foldl_insert p.requiredKeywords), Assoc.mem_of_get?_eq_some⟩

theorem mem_keywordPairs?_iff (hp : p.IsSorted) (hq : q.IsSorted)
    (h : keywordPairs? p q = some pairs) :
    e ∈ pairs ↔
      (∃ k, q.named? k ≠ none ∧ p.keyword? k = some e.1 ∧ q.keyword? k = some e.2) ∨
        p.restKeywords = some e.1 ∧ q.restKeywords = some e.2 := by
  obtain ⟨_, h⟩ := Option.ite_none_right_eq_some.mp h
  obtain ⟨named, hnamed, rfl⟩ := Option.map_eq_some_iff.mp h
  rw [List.mem_append, Option.mem_toList, pair_eq_some_iff, mem_iff_of_mapM hnamed]
  refine or_congr_left ?_
  constructor
  · rintro ⟨⟨k, y⟩, hk, he⟩
    obtain ⟨x, hx, rfl⟩ := Option.map_eq_some_iff.mp he
    rw [mem_namedKeywords_iff hq] at hk
    rw [get?_namedKeywords hp, ← keyword?_eq_named?_or] at hx
    refine ⟨k, ?_, hx, keyword?_of_named? hk⟩
    rw [hk]
    exact Option.some_ne_none y
  · rintro ⟨k, hk, hx, hy⟩
    obtain ⟨y, hk⟩ := Option.ne_none_iff_exists'.mp hk
    obtain rfl : y = e.2 := Option.some.inj ((keyword?_of_named? hk).symm.trans hy)
    refine ⟨(k, e.2), (mem_namedKeywords_iff hq).mpr hk, ?_⟩
    rw [get?_namedKeywords hp, ← keyword?_eq_named?_or, hx]
    rfl

/-- Whether the slots of a list and of one that is to stand for it are compared at an inlet. A keyword
that the list does not name is left to the slots for all other keywords. -/
def Compares (q : Params α) : Inlet → Prop
  | .argument (.keyword k) => q.named? k ≠ none
  | _ => True

/-- The paired slots are those for the same argument, or for all other keywords, wherever they are
compared. -/
theorem mem_pairs?_iff (hp : p.IsSorted) (hq : q.IsSorted) (h : p.pairs? q = some pairs) :
    e ∈ pairs ↔ ∃ i, q.Compares i ∧ p.inlet? i = some e.1 ∧ q.inlet? i = some e.2 := by
  obtain ⟨positional, hpos, h⟩ := Option.bind_eq_some_iff.mp h
  obtain ⟨keywords, hkw, rfl⟩ := Option.map_eq_some_iff.mp h
  rw [List.mem_append, mem_positionalPairs?_iff hpos, mem_keywordPairs?_iff hp hq hkw]
  constructor
  · rintro (⟨i, hi⟩ | ⟨k, hk, hi⟩ | hi)
    · exact ⟨.argument (.positional i), trivial, hi⟩
    · exact ⟨.argument (.keyword k), hk, hi⟩
    · exact ⟨.otherKeywords, trivial, hi⟩
  · rintro ⟨i, hi, hpair⟩
    cases i with
    | otherKeywords => exact .inr (.inr hpair)
    | argument a =>
        cases a with
        | positional i => exact .inl ⟨i, hpair⟩
        | keyword k => exact .inr (.inl ⟨k, hi, hpair⟩)

end Pairs

section Merge

variable (merge : α → α → α) (p q : Params α)

theorem inlet?_unionWith (i : Inlet) :
    (unionWith merge p q).inlet? i = Option.merge merge (p.inlet? i) (q.inlet? i) ∨
      (unionWith merge p q).inlet? i = Option.merge merge (q.inlet? i) (p.inlet? i) := by
  cases i with
  | argument a => exact taker?_unionWith merge p q a
  | otherKeywords => exact .inl rfl

theorem isSorted_unionWith {p : Params α} (h : p.IsSorted) : (unionWith merge p q).IsSorted := by
  refine ⟨h.1.filterMap fun e e' he => ?_, Assoc.isSorted_ofFirsts _⟩
  obtain ⟨y, _, rfl⟩ := Option.map_eq_some_iff.mp he
  rfl

theorem fits_of_takes {p q : Params α} (hcount : p.required.length ≤ q.required.length)
    (hgiven : ∀ k ∈ Assoc.keys p.requiredKeywords, k ∈ Assoc.keys q.requiredKeywords)
    (htakes : ∀ a, p.taker? a = none → q.taker? a = none) : p.Fits q where
  enough _ := Nat.le_trans hcount (Nat.le_add_right _ _)
  room hrest := by
    have hp : p.positional? p.fixedSize = none :=
      (positional?_eq_none_iff p _).mpr ⟨Nat.le_refl _, hrest⟩
    exact ((positional?_eq_none_iff q _).mp (htakes (.positional _) hp)).symm
  given := hgiven
  known k hk hnone := by
    have hq := (keyword?_eq_none_iff q k).mp (htakes (.keyword k) hnone)
    exact (Assoc.get?_eq_none_iff _ k).mp hq.1 hk

theorem fits_unionWith : (unionWith merge p q).Fits p ∧ (unionWith merge p q).Fits q := by
  have hlength := length_required_unionWith merge p q
  constructor
  · apply fits_of_takes (by omega)
    · exact fun k hk => ((mem_keys_required_unionWith merge p q k).mp hk).1
    · exact fun a ha => ((taker?_unionWith_eq_none_iff merge p q a).mp ha).1
  · apply fits_of_takes (by omega)
    · exact fun k hk => ((mem_keys_required_unionWith merge p q k).mp hk).2
    · exact fun a ha => ((taker?_unionWith_eq_none_iff merge p q a).mp ha).2

end Merge

end Params

end Subtyping
