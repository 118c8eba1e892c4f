import Subtyping.Params.Basic

/-!
# Call shapes

What the shape of a call is, and which shapes a parameter list accepts, said on the slots alone.
-/

namespace Subtyping

/-- The arguments of a call by number and name. -/
structure CallShape where
  positional : Nat
  keywords : List Atom

namespace Params

variable {α : Type}

/-- A call shape is accepted when every required slot receives an argument and every argument has
a slot. -/
structure Accepts (p : Params α) (call : CallShape) : Prop where
  enough : p.required.length ≤ call.positional
  room : p.rest = none → call.positional ≤ p.fixedSize
  given : ∀ k ∈ Assoc.keys p.requiredKeywords, k ∈ call.keywords
  known : ∀ k ∈ call.keywords, p.keyword? k ≠ none

theorem accepts_iff {p : Params α} {call : CallShape} :
    p.Accepts call ↔
      p.required.length ≤ call.positional ∧ (p.rest = none → call.positional ≤ p.fixedSize) ∧
        (∀ k ∈ Assoc.keys p.requiredKeywords, k ∈ call.keywords) ∧
        ∀ k ∈ call.keywords, p.keyword? k ≠ none := by
  constructor
  · rintro ⟨enough, room, given, known⟩
    exact ⟨enough, room, given, known⟩
  · rintro ⟨enough, room, given, known⟩
    exact ⟨enough, room, given, known⟩

instance (p : Params α) (call : CallShape) : Decidable (p.Accepts call) :=
  decidable_of_iff _ accepts_iff.symm

theorem accepts_map {β : Type} (f : α → β) (p : Params α) (call : CallShape) :
    (p.map f).Accepts call ↔ p.Accepts call := by
  constructor
  · rintro ⟨enough, room, given, known⟩
    refine ⟨by simpa [map] using enough, fun h => ?_, by simpa [map] using given, fun k hk => ?_⟩
    · simpa [map, fixedSize] using room (by simpa [map] using h)
    · simpa [keyword?_map] using known k hk
  · rintro ⟨enough, room, given, known⟩
    refine ⟨by simpa [map] using enough, fun h => ?_, by simpa [map] using given, fun k hk => ?_⟩
    · simpa [map, fixedSize] using room (by simpa [map] using h)
    · simpa [keyword?_map] using known k hk

theorem Accepts.positional?_ne_none {p : Params α} {call : CallShape} (h : p.Accepts call)
    {i : Nat} (hi : i < call.positional) : p.positional? i ≠ none := by
  cases hr : p.rest with
  | some x => cases hf : p.fixed[i]? <;> simp [positional?, hr, hf]
  | none =>
      have : i < p.fixed.length := by
        rw [length_fixed]
        exact Nat.lt_of_lt_of_le hi (h.room hr)
      simp [positional?, hr, this]

end Params

end Subtyping
