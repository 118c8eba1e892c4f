import Subtyping.Params.OfTypes
import Subtyping.Proofs.Params.Fits
import Subtyping.Proofs.Params.Keywords
import Subtyping.Proofs.Params.Slots
import Subtyping.Proofs.Ty.Reorder

/-!
# Calls of merged parameter lists

The merge for calls that both lists take is exact: it fails only when there is no such call, and
takes these calls and no others (`inter?_exact`). The merge for calls that either list takes is the
least that counts of arguments and sets of keywords can say (`union_hull`). In both, an argument
goes to the merge of what the two lists pass it to.
-/

namespace Subtyping

/-- An argument of a call, by its place or by its name. -/
inductive Argument
  | positional (i : Nat)
  | keyword (k : Atom)

/-- Whether a call gives an argument. -/
def CallShape.Gives (call : CallShape) : Argument → Prop
  | .positional i => i < call.positional
  | .keyword k => k ∈ call.keywords

namespace Params

section Merged

variable {α : Type} (merge : α → α → α) (p q : Params α)

/-- The content of the slot that takes an argument. -/
def taker? (p : Params α) : Argument → Option α
  | .positional i => p.positional? i
  | .keyword k => p.keyword? k

theorem accepts_iff_taker? {p : Params α} {call : CallShape} :
    p.Accepts call ↔
      p.required.length ≤ call.positional ∧
        (∀ k ∈ Assoc.keys p.requiredKeywords, k ∈ call.keywords) ∧
        ∀ a, call.Gives a → p.taker? a ≠ none := by
  rw [accepts_iff_slots]
  constructor
  · rintro ⟨henough, hroom, hgiven, hknown⟩
    refine ⟨henough, hgiven, fun a ha => ?_⟩
    cases a with
    | positional i => exact hroom i ha
    | keyword k => exact hknown k ha
  · rintro ⟨henough, hgiven, htaken⟩
    exact ⟨henough, fun i hi => htaken (.positional i) hi, hgiven,
      fun k hk => htaken (.keyword k) hk⟩

theorem taker?_unionWith (a : Argument) :
    (unionWith merge p q).taker? a = Option.merge merge (p.taker? a) (q.taker? a) ∨
      (unionWith merge p q).taker? a = Option.merge merge (q.taker? a) (p.taker? a) := by
  cases a with
  | positional i => exact .inl (positional?_unionWith merge p q i)
  | keyword k => exact keyword?_unionWith merge p q k

theorem taker?_interWith (a : Argument) :
    (interWith merge p q).taker? a = Option.map₂ merge (p.taker? a) (q.taker? a) ∨
      (interWith merge p q).taker? a = Option.map₂ merge (q.taker? a) (p.taker? a) := by
  cases a with
  | positional i => exact .inl (positional?_interWith merge p q i)
  | keyword k => exact keyword?_interWith merge p q k

theorem taker?_unionWith_eq_none_iff (a : Argument) :
    (unionWith merge p q).taker? a = none ↔ p.taker? a = none ∧ q.taker? a = none := by
  rcases taker?_unionWith merge p q a with h | h
  · rw [h, Option.merge_eq_none_iff]
  · rw [h, Option.merge_eq_none_iff, and_comm]

theorem taker?_interWith_eq_none_iff (a : Argument) :
    (interWith merge p q).taker? a = none ↔ p.taker? a = none ∨ q.taker? a = none := by
  rcases taker?_interWith merge p q a with h | h
  · rw [h, Option.map₂_eq_none_iff]
  · rw [h, Option.map₂_eq_none_iff, or_comm]

/-- Whether a list passes on what another requires. -/
structure Meets (p q : Params α) : Prop where
  positional : ∀ i < p.required.length, q.positional? i ≠ none
  keywords : ∀ k ∈ Assoc.keys p.requiredKeywords, q.keyword? k ≠ none

theorem Accepts.meets {p q : Params α} {call : CallShape} (hp : p.Accepts call)
    (hq : q.Accepts call) : p.Meets q where
  positional _ hi := hq.positional?_ne_none (Nat.lt_of_lt_of_le hi hp.enough)
  keywords k hk := hq.known k (hp.given k hk)

theorem reconcilable_iff : reconcilable p q = true ↔ p.Meets q ∧ q.Meets p := by
  have hkeywords : ∀ r s : Params α,
      (r.requiredKeywords.all fun e => (s.keyword? e.1).isSome) = true ↔
        ∀ k ∈ Assoc.keys r.requiredKeywords, s.keyword? k ≠ none := by
    intro r s
    rw [List.all_eq_true, Assoc.keys, List.forall_mem_map]
    exact forall₂_congr fun e _ => Option.isSome_iff_ne_none
  rw [reconcilable, Bool.and_eq_true, Bool.and_eq_true, all_not_clash_iff, hkeywords, hkeywords]
  constructor
  · rintro ⟨⟨⟨hp, hq⟩, hpk⟩, hqk⟩
    exact ⟨⟨hp, hpk⟩, ⟨hq, hqk⟩⟩
  · rintro ⟨⟨hp, hpk⟩, ⟨hq, hqk⟩⟩
    exact ⟨⟨⟨hp, hq⟩, hpk⟩, hqk⟩

/-- The call with no argument that neither list requires. -/
def commonCall (p q : Params α) : CallShape :=
  ⟨max p.required.length q.required.length,
    Assoc.keys p.requiredKeywords ++ Assoc.keys q.requiredKeywords⟩

theorem Meets.takes_commonCall {p q : Params α} (hqp : q.Meets p) {a : Argument}
    (ha : (p.commonCall q).Gives a) : p.taker? a ≠ none := by
  cases a with
  | positional i =>
      have hi : i < max p.required.length q.required.length := ha
      by_cases hlt : i < p.required.length
      · obtain ⟨x, hx⟩ := positional?_eq_some_of_lt hlt
        simp [taker?, hx]
      · exact hqp.positional i (by omega)
  | keyword k =>
      rcases List.mem_append.mp ha with hk | hk
      · obtain ⟨x, hx⟩ := (Assoc.mem_keys_iff _ _).mp hk
        simp [taker?, keyword?_of_named? (named?_of_required hx)]
      · exact hqp.keywords k hk

theorem accepts_interWith_iff {p q : Params α} (hpq : p.Meets q) (hqp : q.Meets p)
    (call : CallShape) :
    (interWith merge p q).Accepts call ↔ p.Accepts call ∧ q.Accepts call := by
  have hlength := length_required_interWith merge p q hpq.positional hqp.positional
  have hkeys := fun k => mem_keys_required_interWith merge p q k hpq.keywords hqp.keywords
  simp only [accepts_iff_taker?, hlength, hkeys, taker?_interWith_eq_none_iff, Nat.max_le, not_or,
    ne_eq]
  constructor
  · rintro ⟨⟨hp, hq⟩, hgiven, htaken⟩
    exact ⟨⟨hp, fun k hk => hgiven k (.inl hk), fun a ha => (htaken a ha).1⟩,
      ⟨hq, fun k hk => hgiven k (.inr hk), fun a ha => (htaken a ha).2⟩⟩
  · rintro ⟨⟨hp, hpk, hpa⟩, ⟨hq, hqk, hqa⟩⟩
    exact ⟨⟨hp, hq⟩, fun k hk => hk.elim (hpk k) (hqk k), fun a ha => ⟨hpa a ha, hqa a ha⟩⟩

/-- The merge fails only when no call is accepted by both lists. -/
theorem reconcilable_iff_exists :
    reconcilable p q = true ↔ ∃ call, p.Accepts call ∧ q.Accepts call := by
  rw [reconcilable_iff]
  constructor
  · rintro ⟨hpq, hqp⟩
    have hsame : ∀ a, (p.commonCall q).Gives a → (q.commonCall p).Gives a := by
      intro a ha
      cases a with
      | positional i =>
          have hi : i < max p.required.length q.required.length := ha
          show i < max q.required.length p.required.length
          rwa [Nat.max_comm]
      | keyword k =>
          apply List.mem_append.mpr
          exact (List.mem_append.mp ha).symm
    refine ⟨p.commonCall q, ?_, ?_⟩
    · rw [accepts_iff_taker?]
      exact ⟨Nat.le_max_left _ _, fun k hk => List.mem_append_left _ hk,
        fun a ha => hqp.takes_commonCall ha⟩
    · rw [accepts_iff_taker?]
      exact ⟨Nat.le_max_right _ _, fun k hk => List.mem_append_right _ hk,
        fun a ha => hpq.takes_commonCall (hsame a ha)⟩
  · rintro ⟨call, hp, hq⟩
    exact ⟨hp.meets hq, hq.meets hp⟩

theorem room_union_iff (n : Nat) :
    (p.rest = none → q.rest = none → n ≤ max p.fixedSize q.fixedSize) ↔
      ∀ i < n, ¬(p.positional? i = none ∧ q.positional? i = none) := by
  constructor
  · rintro hroom i hi ⟨hp, hq⟩
    rw [positional?_eq_none_iff] at hp hq
    have := hroom hp.2 hq.2
    omega
  · intro h hp hq
    apply Nat.le_of_not_lt
    intro hlt
    -- without rest slots neither list takes the argument after all fixed slots
    apply h (max p.fixedSize q.fixedSize) hlt
    rw [positional?_eq_none_iff, positional?_eq_none_iff]
    exact ⟨⟨Nat.le_max_left _ _, hp⟩, ⟨Nat.le_max_right _ _, hq⟩⟩

theorem accepts_unionWith_iff (call : CallShape) :
    (unionWith merge p q).Accepts call ↔
      min p.required.length q.required.length ≤ call.positional ∧
        (∀ k, k ∈ Assoc.keys p.requiredKeywords → k ∈ Assoc.keys q.requiredKeywords →
          k ∈ call.keywords) ∧
        ∀ a, call.Gives a → ¬(p.taker? a = none ∧ q.taker? a = none) := by
  simp only [accepts_iff_taker?, length_required_unionWith, mem_keys_required_unionWith, and_imp,
    taker?_unionWith_eq_none_iff, ne_eq]

theorem named_union_iff (k : Atom) :
    ¬(p.keyword? k = none ∧ q.keyword? k = none) ↔
      k ∈ Assoc.keys p.namedKeywords ∨ k ∈ Assoc.keys q.namedKeywords ∨
        p.restKeywords ≠ none ∨ q.restKeywords ≠ none := by
  rw [keyword?_eq_none_iff, keyword?_eq_none_iff, Assoc.get?_eq_none_iff, Assoc.get?_eq_none_iff]
  tauto

theorem accepts_unionWith_iff_counts (call : CallShape) :
    (unionWith merge p q).Accepts call ↔
      min p.required.length q.required.length ≤ call.positional ∧
        (p.rest = none → q.rest = none → call.positional ≤ max p.fixedSize q.fixedSize) ∧
        (∀ k, k ∈ Assoc.keys p.requiredKeywords → k ∈ Assoc.keys q.requiredKeywords →
          k ∈ call.keywords) ∧
        ∀ k ∈ call.keywords, k ∈ Assoc.keys p.namedKeywords ∨ k ∈ Assoc.keys q.namedKeywords ∨
          p.restKeywords ≠ none ∨ q.restKeywords ≠ none := by
  rw [accepts_unionWith_iff, room_union_iff]
  constructor
  · rintro ⟨hcount, hgiven, htaken⟩
    exact ⟨hcount, fun i hi => htaken (.positional i) hi, hgiven,
      fun k hk => (named_union_iff p q k).mp (htaken (.keyword k) hk)⟩
  · rintro ⟨hcount, hroom, hgiven, hknown⟩
    refine ⟨hcount, hgiven, fun a ha => ?_⟩
    cases a with
    | positional i => exact hroom i ha
    | keyword k => exact (named_union_iff p q k).mpr (hknown k ha)

theorem accepts_unionWith {call : CallShape} (h : p.Accepts call ∨ q.Accepts call) :
    (unionWith merge p q).Accepts call := by
  rw [accepts_unionWith_iff]
  rcases h with h | h
  · obtain ⟨hcount, hgiven, htaken⟩ := accepts_iff_taker?.mp h
    exact ⟨by omega, fun k hk _ => hgiven k hk, fun a ha hnone => htaken a ha hnone.1⟩
  · obtain ⟨hcount, hgiven, htaken⟩ := accepts_iff_taker?.mp h
    exact ⟨by omega, fun k _ hk => hgiven k hk, fun a ha hnone => htaken a ha hnone.2⟩

end Merged

/-- The intersection of two parameter lists fails only when no call is accepted by both. If there is
one, it accepts the calls that both accept and no others, and each argument of such a call goes to
the intersection of the types that the two lists pass it to. -/
theorem inter?_exact (p q : Params Ty) :
    (p.inter? q = none ↔ ∀ call, ¬(p.Accepts call ∧ q.Accepts call)) ∧
      ∀ r, p.inter? q = some r →
        (∀ call, r.Accepts call ↔ p.Accepts call ∧ q.Accepts call) ∧
        ∀ call, r.Accepts call → ∀ a, call.Gives a →
          ∃ t u v, p.taker? a = some t ∧ q.taker? a = some u ∧ r.taker? a = some v ∧
            v.Reordered (t.and u) := by
  constructor
  · rw [inter?, interWith?_eq_none_iff, ← Bool.not_eq_true, reconcilable_iff_exists]
    simp only [not_exists]
  · intro r hr
    obtain ⟨hreconcilable, rfl⟩ := (interWith?_eq_some_iff Ty.and p q r).mp hr
    obtain ⟨hpq, hqp⟩ := (reconcilable_iff p q).mp hreconcilable
    have haccepts := accepts_interWith_iff Ty.and hpq hqp
    refine ⟨haccepts, fun call hcall a ha => ?_⟩
    obtain ⟨hp, hq⟩ := (haccepts call).mp hcall
    obtain ⟨t, ht⟩ := Option.ne_none_iff_exists'.mp ((accepts_iff_taker?.mp hp).2.2 a ha)
    obtain ⟨u, hu⟩ := Option.ne_none_iff_exists'.mp ((accepts_iff_taker?.mp hq).2.2 a ha)
    rcases taker?_interWith Ty.and p q a with h | h
    · exact ⟨t, u, t.and u, ht, hu, by simp [h, ht, hu], .refl _⟩
    · exact ⟨t, u, u.and t, ht, hu, by simp [h, ht, hu], Ty.and_reordered u t⟩

-- A rest meets the slots of the other list one by one, and a required slot stays required.
example : inter? { rest := some .bool } { required := [.nil], optional := [.void] } =
    some { required := [.inter [.bool, .nil]], optional := [.inter [.bool, .void]] } := by
  decide +kernel

theorem merge_or_reordered {x y : Option Ty} {u : Ty} (h : Option.merge Ty.or x y = some u) :
    ∃ t, Option.merge Ty.or y x = some t ∧ t.Reordered u := by
  cases x with
  | none => exact ⟨u, by simpa using h, .refl u⟩
  | some t =>
      cases y with
      | none => exact ⟨u, by simpa using h, .refl u⟩
      | some t' =>
          obtain rfl : t.or t' = u := by simpa using h
          exact ⟨t'.or t, rfl, Ty.or_reordered t' t⟩

/-- The union of two parameter lists accepts what the counts of arguments and the keywords of both
lists leave open, so it accepts what either accepts. Each argument of an accepted call goes to the
union of the types that the lists pass it to, or to the type of the one that has a slot for it. -/
theorem union_hull (p q : Params Ty) (call : CallShape) :
    ((p.union q).Accepts call ↔
      min p.required.length q.required.length ≤ call.positional ∧
        (p.rest = none → q.rest = none → call.positional ≤ max p.fixedSize q.fixedSize) ∧
        (∀ k, k ∈ Assoc.keys p.requiredKeywords → k ∈ Assoc.keys q.requiredKeywords →
          k ∈ call.keywords) ∧
        ∀ k ∈ call.keywords, k ∈ Assoc.keys p.namedKeywords ∨ k ∈ Assoc.keys q.namedKeywords ∨
          p.restKeywords ≠ none ∨ q.restKeywords ≠ none) ∧
      (p.Accepts call ∨ q.Accepts call → (p.union q).Accepts call) ∧
      ((p.union q).Accepts call → ∀ a, call.Gives a →
        ∃ t u, (p.union q).taker? a = some t ∧
          Option.merge Ty.or (p.taker? a) (q.taker? a) = some u ∧ t.Reordered u) := by
  refine ⟨accepts_unionWith_iff_counts Ty.or p q call, accepts_unionWith Ty.or p q,
    fun h a ha => ?_⟩
  have htaken := ((accepts_unionWith_iff Ty.or p q call).mp h).2.2 a ha
  rw [← Option.merge_eq_none_iff (f := Ty.or)] at htaken
  obtain ⟨u, hu⟩ := Option.ne_none_iff_exists'.mp htaken
  rcases taker?_unionWith Ty.or p q a with hl | hl
  · exact ⟨u, u, by rw [union, hl, hu], hu, .refl u⟩
  · obtain ⟨t, ht, hreordered⟩ := merge_or_reordered hu
    exact ⟨t, u, by rw [union, hl, ht], hu, hreordered⟩

end Params

end Subtyping
