import Mathlib.Data.List.Nodup
import Subtyping.Proofs.Params.Aligned

/-!
# Calls and paired slots

Each pair of slots is there for a call of the expected list, and where there are no pairs at all there
is a call that only the expected list takes (`pairs?_justified`). The converse is nearly true: an
argument of a call that both lists take goes through paired slots, unless it is a keyword that the
expected list leaves to its slot for all other keywords while the other list names it
(`pairs?_cover`).
-/

namespace Subtyping

instance {κ α : Type} [LT κ] [DecidableLT κ] (m : List (κ × α)) : Decidable (Assoc.IsSorted m) :=
  inferInstanceAs (Decidable ((m.map Prod.fst).Pairwise (· < ·)))

instance (call : CallShape) (a : Argument) : Decidable (call.Gives a) :=
  match a with
  | .positional i => inferInstanceAs (Decidable (i < call.positional))
  | .keyword k => inferInstanceAs (Decidable (k ∈ call.keywords))

namespace Params

variable {α : Type} {p q : Params α} {pairs : List (α × α)} {a : Argument} {x y : α}

instance (p : Params α) : Decidable p.IsSorted :=
  inferInstanceAs (Decidable (Assoc.IsSorted _ ∧ Assoc.IsSorted _))

/-! ## Pairs for calls -/

/-- An argument is a keyword that one list names, where the other has only a slot for all other
keywords. -/
def Overlooks (p q : Params α) : Argument → Prop
  | .positional _ => False
  | .keyword k => p.named? k ≠ none ∧ q.named? k = none

theorem mem_pairs?_of_taker? (hp : p.IsSorted) (hq : q.IsSorted) (h : p.pairs? q = some pairs)
    (hx : p.taker? a = some x) (hy : q.taker? a = some y) (ha : ¬p.Overlooks q a) :
    (x, y) ∈ pairs := by
  rw [mem_pairs?_iff hp hq h]
  cases a with
  | positional i => exact ⟨.argument (.positional i), trivial, hx, hy⟩
  | keyword k =>
      by_cases hk : q.named? k = none
      · -- neither list names the keyword, so it goes through both slots for all other keywords
        have hk' : p.named? k = none := Decidable.byContradiction fun hne => ha ⟨hne, hk⟩
        rw [taker?, keyword?_eq_named?_or, hk', Option.none_or] at hx
        rw [taker?, keyword?_eq_named?_or, hk, Option.none_or] at hy
        exact ⟨.otherKeywords, trivial, hx, hy⟩
      · exact ⟨.argument (.keyword k), hk, hx, hy⟩

theorem inlet_eq_of_named? (hnodup : p.contents.Nodup) {k : Atom} (hk : p.named? k = some x)
    {i : Inlet} (hi : p.inlet? i = some x) : i = .argument (.keyword k) := by
  -- positional slots, then slots for keywords by name, then the slot for all other keywords
  have hparts : p.contents = p.fixed ++ p.rest.toList ++
      (Assoc.values (p.requiredKeywords ++ p.optionalKeywords) ++ p.restKeywords.toList) := by
    simp [contents, fixed, Assoc.values]
  have hentry : ∀ {l : Atom}, p.named? l = some x →
      (l, x) ∈ p.requiredKeywords ++ p.optionalKeywords := by
    intro l hl
    rw [named?, ← Assoc.get?_append] at hl
    exact Assoc.mem_of_get?_eq_some hl
  have hvalue : x ∈ Assoc.values (p.requiredKeywords ++ p.optionalKeywords) :=
    List.mem_map_of_mem (hentry hk)
  rw [hparts] at hnodup
  obtain ⟨_, hkeywords, hpositional⟩ := List.nodup_append.mp hnodup
  obtain ⟨hvalues, _, hrest⟩ := List.nodup_append.mp hkeywords
  have hother : p.restKeywords ≠ some x := fun h => hrest x hvalue x (by simp [h]) rfl
  cases i with
  | otherKeywords => exact absurd hi hother
  | argument a =>
      cases a with
      | positional i =>
          refine absurd rfl (hpositional x ?_ x (List.mem_append_left _ hvalue))
          rcases Option.or_eq_some_iff.mp hi with h | ⟨_, h⟩
          · exact List.mem_append_left _ (List.mem_of_getElem? h)
          · exact List.mem_append_right _ (by simp [h])
      | keyword l =>
          rcases Option.or_eq_some_iff.mp hi with h | ⟨_, h⟩
          · have hsame := List.inj_on_of_nodup_map hvalues (hentry h) (hentry hk) rfl
            rw [(Prod.mk.inj hsame).1]
          · exact absurd h hother

theorem notMem_pairs?_of_overlooks (hp : p.IsSorted) (hq : q.IsSorted) (h : p.pairs? q = some pairs)
    (hnodup : p.contents.Nodup) (ha : p.Overlooks q a) (hx : p.taker? a = some x) :
    (x, y) ∉ pairs := by
  cases a with
  | positional i => exact ha.elim
  | keyword k =>
      obtain ⟨hpk, hqk⟩ := ha
      have hk : p.named? k = some x := by
        obtain ⟨z, hz⟩ := Option.ne_none_iff_exists'.mp hpk
        rw [hz, ← keyword?_of_named? hz]
        exact hx
      rw [mem_pairs?_iff hp hq h]
      rintro ⟨i, hi, hix, _⟩
      obtain rfl := inlet_eq_of_named? hnodup hk hix
      exact hi hqk

/-- An argument of a call that both lists take goes through two paired slots, unless it is a keyword
that one list names where the other has only a slot for all other keywords. The slots of such a keyword
are not paired: only where another slot carries the same may their contents be. -/
theorem pairs?_cover (hp : p.IsSorted) (hq : q.IsSorted) (h : p.pairs? q = some pairs)
    {call : CallShape} (hpc : p.Accepts call) (hqc : q.Accepts call) (ha : call.Gives a) :
    ∃ x y, p.taker? a = some x ∧ q.taker? a = some y ∧
      (¬p.Overlooks q a → (x, y) ∈ pairs) ∧
      (p.Overlooks q a → p.contents.Nodup → (x, y) ∉ pairs) := by
  obtain ⟨x, hx⟩ := Option.ne_none_iff_exists'.mp ((accepts_iff_taker?.mp hpc).2.2 a ha)
  obtain ⟨y, hy⟩ := Option.ne_none_iff_exists'.mp ((accepts_iff_taker?.mp hqc).2.2 a ha)
  refine ⟨x, y, hx, hy, fun hnot => ?_, fun hover hnodup => ?_⟩
  · exact mem_pairs?_of_taker? hp hq h hx hy hnot
  · exact notMem_pairs?_of_overlooks hp hq h hnodup hover hx

/-- A list with a slot for every argument, of which one keyword has a slot of its own. -/
def lenient : Params Ty where
  required := [.nil]
  rest := some .bool
  optionalKeywords := [(⟨1⟩, .void)]
  restKeywords := some .any

/-- A list of two positional arguments that requires another keyword. -/
def exacting : Params Ty where
  required := [.void, .nil]
  requiredKeywords := [(⟨2⟩, .bool)]
  restKeywords := some .nil

/-- A keyword that neither list names goes through both slots for all other keywords. -/
theorem pairs?_cover_lenient :
    lenient.IsSorted ∧ exacting.IsSorted ∧
      lenient.pairs? exacting = some [(.nil, .void), (.bool, .nil), (.any, .bool), (.any, .nil)] ∧
      lenient.Accepts ⟨2, [⟨2⟩, ⟨3⟩]⟩ ∧ exacting.Accepts ⟨2, [⟨2⟩, ⟨3⟩]⟩ ∧
      CallShape.Gives ⟨2, [⟨2⟩, ⟨3⟩]⟩ (.keyword ⟨3⟩) ∧
      ∃ x y, lenient.taker? (.keyword ⟨3⟩) = some x ∧ exacting.taker? (.keyword ⟨3⟩) = some y ∧
        (x, y) ∈ [(.nil, .void), (.bool, .nil), (.any, .bool), (Ty.any, Ty.nil)] := by
  have hp : lenient.IsSorted := by decide
  have hq : exacting.IsSorted := by decide
  have h : lenient.pairs? exacting =
      some [(.nil, .void), (.bool, .nil), (.any, .bool), (.any, .nil)] := by decide +kernel
  have hpc : lenient.Accepts ⟨2, [⟨2⟩, ⟨3⟩]⟩ := by decide
  have hqc : exacting.Accepts ⟨2, [⟨2⟩, ⟨3⟩]⟩ := by decide
  have ha : CallShape.Gives ⟨2, [⟨2⟩, ⟨3⟩]⟩ (.keyword ⟨3⟩) := by decide
  have hnot : ¬lenient.Overlooks exacting (.keyword ⟨3⟩) := fun hover => hover.1 (by decide +kernel)
  obtain ⟨x, y, hx, hy, hcovered, _⟩ := pairs?_cover hp hq h hpc hqc ha
  exact ⟨hp, hq, h, hpc, hqc, ha, x, y, hx, hy, hcovered hnot⟩

/-- A keyword of one list that goes to the slot for all other keywords in the other: a call with it is
taken by both lists, and the contents of its two slots are not paired. -/
theorem not_pairs?_cover :
    lenient.IsSorted ∧ exacting.IsSorted ∧
      lenient.pairs? exacting = some [(.nil, .void), (.bool, .nil), (.any, .bool), (.any, .nil)] ∧
      lenient.Accepts ⟨2, [⟨1⟩, ⟨2⟩]⟩ ∧ exacting.Accepts ⟨2, [⟨1⟩, ⟨2⟩]⟩ ∧
      CallShape.Gives ⟨2, [⟨1⟩, ⟨2⟩]⟩ (.keyword ⟨1⟩) ∧
      lenient.taker? (.keyword ⟨1⟩) = some .void ∧ exacting.taker? (.keyword ⟨1⟩) = some .nil ∧
      (Ty.void, Ty.nil) ∉ [(.nil, .void), (.bool, .nil), (.any, .bool), (.any, .nil)] := by
  decide +kernel

/-! ## Calls for pairs -/

theorem exists_call_of_taker? (h : q.taker? a = some y) :
    ∃ call, q.Accepts call ∧ call.Gives a := by
  cases a with
  | positional i =>
      refine ⟨q.callWith (i + 1) [], accepts_callWith (fun hrest => ?_) (by simp), ?_⟩
      · apply Nat.lt_of_not_le
        intro hle
        have hnone : q.positional? i = none := (positional?_eq_none_iff q i).mpr ⟨hle, hrest⟩
        exact Option.some_ne_none y (h.symm.trans hnone)
      · exact Nat.lt_of_lt_of_le (Nat.lt_succ_self i) (Nat.le_max_left _ _)
  | keyword k =>
      have hk : q.keyword? k ≠ none := fun hnone => Option.some_ne_none y (h.symm.trans hnone)
      refine ⟨q.callWith 0 [k], accepts_callWith (fun _ => Nat.zero_le _) (by simpa using hk), ?_⟩
      exact List.mem_append_left _ (List.mem_singleton_self k)

theorem exists_taker?_of_inlet? {k : Atom} (hpk : p.named? k = none) (hqk : q.named? k = none)
    {i : Inlet} (hx : p.inlet? i = some x) (hy : q.inlet? i = some y) :
    ∃ a, p.taker? a = some x ∧ q.taker? a = some y := by
  cases i with
  | argument a => exact ⟨a, hx, hy⟩
  | otherKeywords =>
      -- the slots for all other keywords take `k`, which neither list names
      refine ⟨.keyword k, ?_, ?_⟩
      · rw [taker?, keyword?_eq_named?_or, hpk, Option.none_or]
        exact hx
      · rw [taker?, keyword?_eq_named?_or, hqk, Option.none_or]
        exact hy

/-- If there are no pairs, some call is taken by the expected list only. If there are, each of them is
a pair of slots for one argument of some call that the expected list takes. -/
theorem pairs?_justified (hp : p.IsSorted) (hq : q.IsSorted)
    (hspare : ∃ k, p.named? k = none ∧ q.named? k = none) :
    (p.pairs? q = none → ∃ call, q.Accepts call ∧ ¬p.Accepts call) ∧
      ∀ pairs, p.pairs? q = some pairs → ∀ x y, (x, y) ∈ pairs →
        ∃ call a, q.Accepts call ∧ call.Gives a ∧ p.taker? a = some x ∧ q.taker? a = some y := by
  constructor
  · intro hnone
    refine Classical.byContradiction fun hall => ?_
    have hfits : p.Fits q := fits_of_accepts fun call hcall =>
      Classical.byContradiction fun hnot => hall ⟨call, hcall, hnot⟩
    exact (pairs?_ne_none_iff p q).mpr hfits hnone
  · intro pairs h x y hxy
    obtain ⟨k, hpk, hqk⟩ := hspare
    obtain ⟨i, _, hx, hy⟩ := (mem_pairs?_iff hp hq h).mp hxy
    obtain ⟨a, hx, hy⟩ := exists_taker?_of_inlet? hpk hqk hx hy
    obtain ⟨call, hcall, ha⟩ := exists_call_of_taker? hy
    exact ⟨call, a, hcall, ha, hx, hy⟩

/-- The slots for all other keywords are paired for a call with a third keyword. The other way round
there are no pairs, since a keyword is required that need not be given. -/
theorem pairs?_justified_lenient :
    (∃ call a, exacting.Accepts call ∧ call.Gives a ∧ lenient.taker? a = some .any ∧
        exacting.taker? a = some .nil) ∧
      ∃ call, lenient.Accepts call ∧ ¬exacting.Accepts call := by
  have hp : lenient.IsSorted := by decide
  have hq : exacting.IsSorted := by decide
  have hspare : lenient.named? ⟨3⟩ = none ∧ exacting.named? ⟨3⟩ = none := by decide +kernel
  have hpairs : lenient.pairs? exacting =
      some [(.nil, .void), (.bool, .nil), (.any, .bool), (.any, .nil)] := by decide +kernel
  have hnone : exacting.pairs? lenient = none := by decide +kernel
  refine ⟨(pairs?_justified hp hq ⟨⟨3⟩, hspare⟩).2 _ hpairs .any .nil (by simp), ?_⟩
  exact (pairs?_justified hq hp ⟨⟨3⟩, hspare.symm⟩).1 hnone

end Params

end Subtyping
