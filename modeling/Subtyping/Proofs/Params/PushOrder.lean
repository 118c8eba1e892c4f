import Mathlib.Data.List.Induction
import Subtyping.Params.OfTypes
import Subtyping.Proofs.Params.Sweep

/-!
# The order of pushes

What comes of the positions of two lists comes in the order in which a parameter list has its slots.
So a loop over the lists pushes required slots first, then optional ones and at most one rest slot
last. The builder takes them without objection and loses none (`Reaches.orderly`), and in the end it
holds the positional slots of the merge (`sweeps_orderly`).
-/

namespace Subtyping

variable {α : Type}

/-- Whether a slot of this kind may come before a slot of that kind. -/
def SlotKind.Precedes : SlotKind → SlotKind → Prop
  | .required, _ => True
  | .optional, kind => kind ≠ .required
  | .rest, _ => False

theorem SlotKind.precedes_ofIndex {r f i j : Nat} (hij : i < j) (hj : j ≤ f) :
    (ofIndex r f i).Precedes (ofIndex r f j) := by
  unfold ofIndex
  grind [SlotKind.Precedes]

theorem Params.Laid.pairwise {slots : List (Slot α)} {required fixed : Nat}
    {content : Nat → Option α} (h : Laid slots required fixed content) :
    slots.Pairwise fun s t => s.kind.Precedes t.kind := by
  -- the place of a slot decides its kind
  have hkind : ∀ (i : Nat) s, slots[i]? = some s →
      i ≤ fixed ∧ s.kind = .ofIndex required fixed i := by
    intro i s hs
    rw [h.getElem?] at hs
    split at hs
    next hle =>
      obtain ⟨x, _, rfl⟩ := Option.map_eq_some_iff.mp hs
      exact ⟨hle, rfl⟩
    next => cases hs
  rw [List.pairwise_iff_getElem]
  intro i j hi hj hij
  obtain ⟨_, hs⟩ := hkind i slots[i] (List.getElem?_eq_getElem hi)
  obtain ⟨hle, ht⟩ := hkind j slots[j] (List.getElem?_eq_getElem hj)
  rw [hs, ht]
  exact SlotKind.precedes_ofIndex hij hle

namespace Builder

/-- What a builder holds, in call order. -/
def slots (b : Builder α) : List (Slot α) :=
  b.required.map (Slot.mk .required) ++ b.optional.map (Slot.mk .optional) ++
    (b.rest.map (Slot.mk .rest)).toList

theorem asserts_of_precedes {b : Builder α} {kind : SlotKind}
    (h : ∀ s ∈ b.slots, s.kind.Precedes kind) : b.Asserts kind ∧ b.rest = none := by
  have hrest : b.rest = none := by
    apply Option.eq_none_iff_forall_ne_some.mpr
    intro x hx
    exact h ⟨.rest, x⟩ (by simp [slots, hx])
  refine ⟨?_, hrest⟩
  cases kind with
  | required =>
      refine ⟨List.eq_nil_iff_forall_not_mem.mpr fun x hx => ?_, hrest⟩
      exact h ⟨.optional, x⟩ (by simp [slots, hx]) rfl
  | optional => exact hrest
  | rest => trivial

theorem slots_push {b : Builder α} {s : Slot α} (h : b.Asserts s.kind) (hrest : b.rest = none) :
    (b.push s).slots = b.slots ++ [s] := by
  obtain ⟨kind, x⟩ := s
  cases kind with
  | required =>
      obtain ⟨hoptional, _⟩ := h
      simp [push, slots, hoptional, hrest]
  | optional => simp [push, slots, hrest]
  | rest => simp [push, slots, hrest]

theorem slots_pushAll {slots : List (Slot α)}
    (h : slots.Pairwise fun s t => s.kind.Precedes t.kind) :
    (slots.foldl push {}).slots = slots := by
  induction slots using List.reverseRecOn with
  | nil => rfl
  | append_singleton slots s ih =>
      obtain ⟨hslots, _, hlast⟩ := List.pairwise_append.mp h
      -- the builder holds the slots before the last one, and each of them may come before it
      have hbefore := ih hslots
      have hprecedes : ∀ t ∈ (slots.foldl push {}).slots, t.kind.Precedes s.kind :=
        fun t ht => hlast t (hbefore ▸ ht) s (List.mem_singleton_self s)
      obtain ⟨hasserts, hrest⟩ := asserts_of_precedes hprecedes
      rw [List.foldl_append, List.foldl_cons, List.foldl_nil, slots_push hasserts hrest, hbefore]

theorem ofSlots_slots (b : Builder α) :
    Params.ofSlots b.slots =
      { required := b.required, optional := b.optional, rest := b.rest } := by
  have hkeep : ∀ (kind : SlotKind) (xs : List α),
      (xs.map (Slot.mk kind)).filter (·.kind == kind) = xs.map (Slot.mk kind) :=
    fun kind xs => List.filter_eq_self.mpr (by simp)
  have hdrop : ∀ (kind kind' : SlotKind) (xs : List α), kind ≠ kind' →
      (xs.map (Slot.mk kind)).filter (·.kind == kind') = [] :=
    fun kind kind' xs h => List.filter_eq_nil_iff.mpr (by simp [h])
  have hfind : ∀ (kind : SlotKind) (xs : List α), kind ≠ .rest →
      (xs.map (Slot.mk kind)).find? (·.kind == .rest) = none :=
    fun kind xs h => List.find?_eq_none.mpr (by simp [h])
  obtain ⟨required, optional, rest⟩ := b
  cases rest <;>
    simp [slots, Params.ofSlots, hkeep, hdrop, hfind, -List.find?_map, Function.comp_def]

end Builder

namespace Sweep

open Params (positions)

variable {f : Option (Slot α) × Option (Slot α) → Option (Slot α)}
variable {clash : Option (Slot α) × Option (Slot α) → Bool}
variable {p q : Params α} {log : List (List (Slot α))} {w : Sweep α}
variable {required fixed : Nat} {content : Nat → Option α}

theorem Reaches.pairwise (h : Reaches (.ofPositions f clash) p q log w)
    (hlaid : Params.Laid ((positions p q).filterMap f) required fixed content) :
    log.flatten.Pairwise fun s t => s.kind.Precedes t.kind := by
  rw [h.follows.flatten_log]
  exact hlaid.pairwise.sublist ((List.take_sublist _ _).filterMap f)

theorem Reaches.slots_out (h : Reaches (.ofPositions f clash) p q log w)
    (hlaid : Params.Laid ((positions p q).filterMap f) required fixed content) :
    w.out.slots = log.flatten := by
  rw [h.follows.out_eq]
  exact Builder.slots_pushAll (h.pairwise hlaid)

/-- What is to be so wherever a loop over two lists comes. -/
structure Orderly (rule : Rule α) (p q : Params α) (log : List (List (Slot α))) (w : Sweep α) :
    Prop where
  /-- The turns so far and the next one. -/
  short : log.length + 1 ≤ p.fixedSize + q.fixedSize + 2
  single : ∀ pushes ∈ log, pushes.length ≤ 1
  ordered : ∃ required optional rest, rest ≤ 1 ∧ log.flatten.map Slot.kind =
    List.replicate required .required ++ List.replicate optional .optional ++
      List.replicate rest .rest
  kept : w.out.slots = log.flatten
  asserted : ∀ pushes drops, w.turn rule = .go pushes drops →
    ∀ s ∈ pushes, w.out.Asserts s.kind ∧ w.out.rest = none

/-- A loop whose positions give their slots in order is orderly wherever it comes. -/
theorem Reaches.orderly (h : Reaches (.ofPositions f clash) p q log w)
    (hlaid : Params.Laid ((positions p q).filterMap f) required fixed content) :
    Orderly (.ofPositions f clash) p q log w := by
  have hkept := h.slots_out hlaid
  constructor
  case short =>
    have := h.follows.length_le
    omega
  case single =>
    rw [h.follows.log_eq]
    intro pushes hpushes
    obtain ⟨s, _, rfl⟩ := List.mem_map.mp hpushes
    exact Option.length_toList_le
  case ordered =>
    refine ⟨w.out.required.length, w.out.optional.length, w.out.rest.toList.length,
      Option.length_toList_le, ?_⟩
    rw [← hkept]
    cases hrest : w.out.rest <;> simp [Builder.slots, hrest, Function.comp_def]
  case kept => exact hkept
  case asserted =>
    intro pushes drops hturn s hs
    -- the state after the turn is reached as well, so what the turn pushes is in order too
    have hnext := (h.next hturn).pairwise hlaid
    rw [List.flatten_append, List.flatten_singleton, ← hkept] at hnext
    exact Builder.asserts_of_precedes fun t ht => (List.pairwise_append.mp hnext).2.2 t ht s hs

theorem Reaches.of_finish (h : Reaches (.ofPositions f clash) p q log w)
    (hlaid : Params.Laid ((positions p q).filterMap f) required fixed content)
    (hf : f (none, none) = none) (hclash : clash (none, none) = false)
    (hturn : w.turn (.ofPositions f clash) = .finish) :
    w.out.slots = (positions p q).filterMap f ∧ ∀ s ∈ positions p q, clash s = false := by
  have hbeyond := h.follows.eq_none_of_finish hturn
  constructor
  · have hnothing : ((positions p q).drop log.length).filterMap f = [] := by
      rw [List.filterMap_eq_nil_iff]
      intro s hs
      rw [hbeyond s hs, hf]
    calc w.out.slots = ((positions p q).take log.length).filterMap f := by
          rw [h.slots_out hlaid, h.follows.flatten_log]
      _ = ((positions p q).take log.length ++ (positions p q).drop log.length).filterMap f := by
          rw [List.filterMap_append, hnothing, List.append_nil]
      _ = (positions p q).filterMap f := by rw [List.take_append_drop]
  · intro s hs
    rw [← List.take_append_drop log.length (positions p q)] at hs
    rcases List.mem_append.mp hs with hs | hs
    · exact h.follows.clear s hs
    · rw [hbeyond s hs, hclash]

end Sweep

namespace Builder

/-- A parameter list that has the slots of a builder for its positional ones. -/
def into (b : Builder α) (p : Params α) : Params α :=
  { p with required := b.required, optional := b.optional, rest := b.rest }

theorem into_eq_self {b : Builder α} {p : Params α} {slots : List (Slot α)}
    (hslots : b.slots = slots)
    (hp : Params.ofSlots slots =
      { required := p.required, optional := p.optional, rest := p.rest }) : b.into p = p := by
  rw [← hslots, ofSlots_slots] at hp
  obtain ⟨hrequired, hoptional, hrest, _⟩ := Params.mk.inj hp
  rw [into, hrequired, hoptional, hrest]

end Builder

namespace Params

open Sweep

/-- The loops of the union and of the intersection of two parameter lists end, after no more turns
than there are fixed slots in both lists and two. A turn pushes at most one slot, and the slots come
in the order in which the builder keeps them, so that what a push asserts holds and no rest slot is
lost. What is built in the end are the positional slots of the union or of the intersection; the loop
of the intersection is given up only if there is none. -/
theorem sweeps_orderly (p q : Params Ty) :
    ((∃ log w, Reaches (.union Ty.or) p q log w ∧ w.turn (.union Ty.or) = .finish) ∧
      ∀ log w, Reaches (.union Ty.or) p q log w →
        Orderly (.union Ty.or) p q log w ∧
          (w.turn (.union Ty.or) = .finish → w.out.into (p.union q) = p.union q)) ∧
    ((∃ log w, Reaches (.inter Ty.and) p q log w ∧
        (w.turn (.inter Ty.and) = .finish ∨ w.turn (.inter Ty.and) = .refuse)) ∧
      ∀ log w, Reaches (.inter Ty.and) p q log w →
        Orderly (.inter Ty.and) p q log w ∧
          (w.turn (.inter Ty.and) = .refuse → p.inter? q = none) ∧
          (w.turn (.inter Ty.and) = .finish →
            (∀ i < p.required.length, q.positional? i ≠ none) ∧
              (∀ i < q.required.length, p.positional? i ≠ none) ∧
              ∀ r, p.inter? q = some r → w.out.into r = r)) := by
  have hunion := laid_unionSlots Ty.or p q
  have hinter := laid_interSlots Ty.and p q
  rw [Rule.union_eq, Rule.inter_eq]
  refine ⟨⟨?_, fun log w h => ⟨h.orderly hunion, fun hturn => ?_⟩⟩, exists_ended _ _ p q,
    fun log w h => ⟨h.orderly hinter, fun hturn => ?_, fun hturn => ?_⟩⟩
  · obtain ⟨log, w, h, hturn | hturn⟩ := exists_ended (Slot.union? Ty.or) (fun _ => false) p q
    · exact ⟨log, w, h, hturn⟩
    · obtain ⟨s, _, hs⟩ := h.follows.exists_clash_of_refuse hturn
      cases hs
  · exact Builder.into_eq_self (h.of_finish hunion rfl rfl hturn).1 rfl
  · obtain ⟨s, hs, hclash⟩ := h.follows.exists_clash_of_refuse hturn
    rw [inter?, interWith?_eq_none_iff, reconcilable, Bool.and_eq_false_iff, Bool.and_eq_false_iff]
    exact .inl (.inl (List.all_eq_false.mpr ⟨s, hs, by simp [hclash]⟩))
  · obtain ⟨hslots, hclear⟩ := h.of_finish hinter rfl rfl hturn
    obtain ⟨hp, hq⟩ := (all_not_clash_iff p q).mp
      (List.all_eq_true.mpr fun s hs => by rw [hclear s hs]; rfl)
    refine ⟨hp, hq, fun r hr => ?_⟩
    obtain ⟨_, rfl⟩ := (interWith?_eq_some_iff Ty.and p q r).mp hr
    exact Builder.into_eq_self hslots rfl

/-- A rest slot meets the fixed slots of the other list one by one. The union then has a rest slot as
well, while the loop of the intersection passes it without a push. -/
theorem sweeps_orderly_spread :
    let p : Params Ty := { required := [.nil], optional := [.bool] }
    let q : Params Ty := { rest := some .void }
    (∃ w, Reaches (.union Ty.or) p q
        [[⟨.optional, Ty.nil.or .void⟩], [⟨.optional, Ty.bool.or .void⟩], [⟨.rest, .void⟩]] w ∧
      w.turn (.union Ty.or) = .finish ∧ w.out.into (p.union q) = p.union q) ∧
    ∃ w, Reaches (.inter Ty.and) p q
        [[⟨.required, Ty.nil.and .void⟩], [⟨.optional, Ty.bool.and .void⟩], []] w ∧
      w.turn (.inter Ty.and) = .finish ∧ ∀ r, p.inter? q = some r → w.out.into r = r := by
  intro p q
  have hunion : Reaches (.union Ty.or) p q ([] ++ [[⟨.optional, Ty.nil.or .void⟩]] ++
      [[⟨.optional, Ty.bool.or .void⟩]] ++ [[⟨.rest, .void⟩]]) _ :=
    ((Reaches.start.next rfl).next rfl).next rfl
  have hinter : Reaches (.inter Ty.and) p q ([] ++ [[⟨.required, Ty.nil.and .void⟩]] ++
      [[⟨.optional, Ty.bool.and .void⟩]] ++ [[]]) _ :=
    ((Reaches.start.next rfl).next rfl).next rfl
  obtain ⟨⟨_, hleft⟩, _, hright⟩ := sweeps_orderly p q
  exact ⟨⟨_, hunion, rfl, (hleft _ _ hunion).2 rfl⟩, _, hinter, rfl,
    ((hright _ _ hinter).2.2 rfl).2.2⟩

end Params

end Subtyping
