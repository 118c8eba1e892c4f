import Mathlib.Data.Option.NAry
import Subtyping.Params.Merge

/-!
# Slots by keyword

What the merged lists pass a keyword to. The tables of a merge are made from both lists in turn, so
where two contents meet, either of them may come first.
-/

namespace Subtyping

namespace Assoc

variable {κ α β γ : Type} [DecidableEq κ] (m : List (κ × α)) (k : κ)

theorem get?_filterMap (g : κ → Option β) (f : α → β → γ) :
    get? k (m.filterMap fun e => (g e.1).map fun y => (e.1, f e.2 y)) =
      Option.map₂ f (get? k m) (g k) := by
  induction m with
  | nil => rfl
  | cons e m ih =>
      rcases e with ⟨l, x⟩
      by_cases hk : k = l
      · subst hk
        cases hg : g k with
        | some y => simp [hg, get?]
        | none => simp [hg, ih]
      · cases hg : g l <;> simp [hg, get?, hk, ih]

theorem get?_map (f : κ × α → β) :
    get? k (m.map fun e => (e.1, f e)) = (get? k m).map fun x => f (k, x) := by
  induction m with
  | nil => rfl
  | cons e m ih =>
      by_cases hk : k = e.1
      · simp [get?, hk]
      · simpa [get?, hk] using ih

theorem get?_filter (p : κ → Bool) :
    get? k (m.filter fun e => p e.1) = if p k then get? k m else none := by
  induction m with
  | nil => simp
  | cons e m ih =>
      rcases e with ⟨l, x⟩
      by_cases hk : k = l
      · subst hk
        by_cases hp : p k <;> simp_all [get?]
      · by_cases hp : p l <;> simp_all [get?]

theorem mem_keys_iff : k ∈ keys m ↔ ∃ x, get? k m = some x := by
  rw [← Option.ne_none_iff_exists', Ne, get?_eq_none_iff, Decidable.not_not]

end Assoc

namespace Params

variable {α : Type}

/-- The content of the slot that a list has for a keyword by name. -/
def named? (p : Params α) (k : Atom) : Option α :=
  (Assoc.get? k p.requiredKeywords).or (Assoc.get? k p.optionalKeywords)

theorem keyword?_eq_named?_or (p : Params α) (k : Atom) :
    p.keyword? k = (p.named? k).or p.restKeywords := rfl

theorem keyword?_of_named? {p : Params α} {k : Atom} {x : α} (h : p.named? k = some x) :
    p.keyword? k = some x := by
  rw [keyword?_eq_named?_or, h, Option.some_or]

theorem named?_of_required {p : Params α} {k : Atom} {x : α}
    (h : Assoc.get? k p.requiredKeywords = some x) : p.named? k = some x := by
  rw [named?, h, Option.some_or]

section Merged

variable (merge : α → α → α) (p q : Params α) (k : Atom)

theorem get?_bothRequired :
    Assoc.get? k (bothRequired merge p q) =
      Option.map₂ merge (Assoc.get? k p.requiredKeywords) (Assoc.get? k q.requiredKeywords) :=
  Assoc.get?_filterMap _ _ (fun l => Assoc.get? l q.requiredKeywords) merge

theorem get?_offered :
    Assoc.get? k (offered merge p q) =
      (p.named? k).bind fun x => Option.merge merge (some x) (q.keyword? k) := by
  rw [offered, Assoc.get?_map, Assoc.get?_append, ← named?]
  dsimp only
  cases p.named? k <;> cases q.keyword? k <;> rfl

theorem get?_granted :
    Assoc.get? k (granted merge p q) =
      Option.map₂ merge (Assoc.get? k p.requiredKeywords) (q.keyword? k) :=
  Assoc.get?_filterMap _ _ q.keyword? merge

theorem get?_spared :
    Assoc.get? k (spared merge p q) =
      Option.map₂ merge (Assoc.get? k p.optionalKeywords)
        ((Assoc.get? k q.optionalKeywords).or q.restKeywords) :=
  Assoc.get?_filterMap _ _ (fun l => (Assoc.get? l q.optionalKeywords).or q.restKeywords) merge

theorem get?_optional_unionWith :
    Assoc.get? k (unionWith merge p q).optionalKeywords =
      if Assoc.has k (bothRequired merge p q) then none
      else (Assoc.get? k (offered merge p q)).or (Assoc.get? k (offered merge q p)) := by
  simp only [unionWith]
  rw [Assoc.get?_ofFirsts, Assoc.get?_filter _ _ fun l => !Assoc.has l _, Assoc.get?_append]
  cases Assoc.has k (bothRequired merge p q) <;> rfl

theorem keyword?_unionWith :
    (unionWith merge p q).keyword? k = Option.merge merge (p.keyword? k) (q.keyword? k) ∨
      (unionWith merge p q).keyword? k = Option.merge merge (q.keyword? k) (p.keyword? k) := by
  have hrequired : (unionWith merge p q).requiredKeywords = bothRequired merge p q := rfl
  have hrest : (unionWith merge p q).restKeywords =
      Option.merge merge p.restKeywords q.restKeywords := rfl
  rw [keyword?, get?_optional_unionWith, hrequired, hrest, Assoc.has]
  cases hboth : Assoc.get? k (bothRequired merge p q) with
  | some z =>
      rw [get?_bothRequired, Option.map₂_eq_some_iff] at hboth
      obtain ⟨x, y, hx, hy, rfl⟩ := hboth
      rw [keyword?_of_named? (named?_of_required hx), keyword?_of_named? (named?_of_required hy)]
      simp
  | none =>
      rw [get?_offered, get?_offered]
      cases hp : p.named? k with
      | some x =>
          left
          rw [keyword?_of_named? hp]
          cases q.keyword? k <;> simp
      | none =>
          cases hq : q.named? k with
          | some y =>
              right
              rw [keyword?_of_named? hq]
              cases p.keyword? k <;> simp
          | none =>
              left
              rw [keyword?_eq_named?_or, keyword?_eq_named?_or, hp, hq]
              simp

theorem get?_required_interWith :
    Assoc.get? k (interWith merge p q).requiredKeywords =
      (Option.map₂ merge (Assoc.get? k p.requiredKeywords) (q.keyword? k)).or
        (Option.map₂ merge (Assoc.get? k q.requiredKeywords) (p.keyword? k)) := by
  simp only [interWith]
  rw [Assoc.get?_ofFirsts, Assoc.get?_append, get?_granted, get?_granted]

theorem get?_optional_interWith :
    Assoc.get? k (interWith merge p q).optionalKeywords =
      if Assoc.has k (interWith merge p q).requiredKeywords then none
      else (Assoc.get? k (spared merge p q)).or (Assoc.get? k (spared merge q p)) := by
  have hoptional : (interWith merge p q).optionalKeywords =
      Assoc.ofFirsts ((spared merge p q ++ spared merge q p).filter fun e =>
        !Assoc.has e.1 (interWith merge p q).requiredKeywords) := rfl
  rw [hoptional, Assoc.get?_ofFirsts, Assoc.get?_filter _ _ fun l => !Assoc.has l _,
    Assoc.get?_append]
  cases Assoc.has k (interWith merge p q).requiredKeywords <;> rfl

theorem keyword?_interWith :
    (interWith merge p q).keyword? k = Option.map₂ merge (p.keyword? k) (q.keyword? k) ∨
      (interWith merge p q).keyword? k = Option.map₂ merge (q.keyword? k) (p.keyword? k) := by
  have hrest : (interWith merge p q).restKeywords =
      Option.map₂ merge p.restKeywords q.restKeywords := by
    simp only [interWith]
    cases p.restKeywords <;> cases q.restKeywords <;> rfl
  rw [keyword?, get?_optional_interWith, Assoc.has, get?_required_interWith, get?_spared,
    get?_spared, hrest]
  cases hp : Assoc.get? k p.requiredKeywords with
  | some x =>
      left
      rw [keyword?_of_named? (named?_of_required hp)]
      cases hq : q.keyword? k with
      | some y => simp
      | none =>
          rw [keyword?, Option.or_eq_none_iff, Option.or_eq_none_iff] at hq
          simp [hq]
  | none =>
      cases hq : Assoc.get? k q.requiredKeywords with
      | some y =>
          right
          rw [keyword?_of_named? (named?_of_required hq)]
          cases hx : p.keyword? k with
          | some x => simp
          | none =>
              rw [keyword?, Option.or_eq_none_iff, Option.or_eq_none_iff] at hx
              simp [hx]
      | none =>
          simp only [keyword?, hp, hq, Option.none_or]
          cases Assoc.get? k p.optionalKeywords with
          | some x =>
              left
              cases hy : (Assoc.get? k q.optionalKeywords).or q.restKeywords with
              | some y => simp
              | none =>
                  rw [Option.or_eq_none_iff] at hy
                  simp [hy]
          | none =>
              cases Assoc.get? k q.optionalKeywords with
              | some y =>
                  right
                  cases p.restKeywords <;> simp
              | none =>
                  left
                  simp

theorem mem_keys_required_unionWith :
    k ∈ Assoc.keys (unionWith merge p q).requiredKeywords ↔
      k ∈ Assoc.keys p.requiredKeywords ∧ k ∈ Assoc.keys q.requiredKeywords := by
  have hrequired : (unionWith merge p q).requiredKeywords = bothRequired merge p q := rfl
  simp only [Assoc.mem_keys_iff, hrequired, get?_bothRequired, Option.map₂_eq_some_iff]
  constructor
  · rintro ⟨z, x, y, hx, hy, _⟩
    exact ⟨⟨x, hx⟩, ⟨y, hy⟩⟩
  · rintro ⟨⟨x, hx⟩, ⟨y, hy⟩⟩
    exact ⟨merge x y, x, y, hx, hy, rfl⟩

theorem mem_keys_required_interWith
    (hp : ∀ l ∈ Assoc.keys p.requiredKeywords, q.keyword? l ≠ none)
    (hq : ∀ l ∈ Assoc.keys q.requiredKeywords, p.keyword? l ≠ none) :
    k ∈ Assoc.keys (interWith merge p q).requiredKeywords ↔
      k ∈ Assoc.keys p.requiredKeywords ∨ k ∈ Assoc.keys q.requiredKeywords := by
  have hnone : Assoc.get? k (interWith merge p q).requiredKeywords = none ↔
      k ∉ Assoc.keys p.requiredKeywords ∧ k ∉ Assoc.keys q.requiredKeywords := by
    rw [get?_required_interWith, Option.or_eq_none_iff, Option.map₂_eq_none_iff,
      Option.map₂_eq_none_iff, Assoc.get?_eq_none_iff, Assoc.get?_eq_none_iff]
    constructor
    · rintro ⟨h, h'⟩
      exact ⟨fun hk => h.elim (· hk) (hp k hk), fun hk => h'.elim (· hk) (hq k hk)⟩
    · rintro ⟨h, h'⟩
      exact ⟨.inl h, .inl h'⟩
  rw [← Decidable.not_iff_not, ← Assoc.get?_eq_none_iff, hnone, not_or]

end Merged

end Params

end Subtyping
