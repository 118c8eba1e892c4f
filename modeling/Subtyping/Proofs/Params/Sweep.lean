import Mathlib.Data.List.Basic
import Subtyping.Proofs.Params.Slots

/-!
# Sweeping over two parameter lists

The merges line two lists up and take each position for itself. Here they are loops instead: a
cursor stands in each list, and a turn looks at the slots under both cursors, pushes slots to a
builder and moves one cursor or both. A rest slot is passed only when the other list has no fixed
slot left, so every turn takes the next position (`Reaches.follows`). Hence a loop comes to an end
(`exists_ended`), and what it pushed is what comes of the positions that it took (`flatten_log`).
-/

namespace Subtyping

variable {α : Type}

/-! ## Cursors, builders and loops -/

/-- A place among the positional slots of a parameter list, with the rest slot at the last place. -/
structure Cursor (α : Type) where
  list : Params α
  index : Nat := 0

namespace Cursor

/-- The slot at the place. -/
def first? (c : Cursor α) : Option (Slot α) :=
  if c.index < c.list.required.length then
    c.list.required[c.index]?.map (Slot.mk .required)
  else if c.index < c.list.fixedSize then
    c.list.optional[c.index - c.list.required.length]?.map (Slot.mk .optional)
  else if c.index = c.list.fixedSize then c.list.restSlot
  else none

def drop (c : Cursor α) : Cursor α := { c with index := c.index + 1 }

end Cursor

/-- Positional slots that are sorted by their kinds as they are pushed. -/
structure Builder (α : Type) where
  required : List α := []
  optional : List α := []
  rest : Option α := none

namespace Builder

/-- What is asserted when a slot of a kind is pushed. -/
def Asserts (b : Builder α) : SlotKind → Prop
  | .required => b.optional = [] ∧ b.rest = none
  | .optional => b.rest = none
  | .rest => True

def push (b : Builder α) : Slot α → Builder α
  | ⟨.required, x⟩ => { b with required := b.required ++ [x] }
  | ⟨.optional, x⟩ => { b with optional := b.optional ++ [x] }
  | ⟨.rest, x⟩ => { b with rest := some x }

end Builder

/-- The cursors that a turn moves. -/
inductive Side
  | left
  | right
  | both

/-- What a turn of a loop does: it ends the loop, with what was pushed or with nothing, or it pushes
slots and moves cursors. -/
inductive Turn (α : Type)
  | finish
  | refuse
  | go (pushes : List (Slot α)) (drops : Side)

/-- What to do in a turn, by the slots under the cursors. -/
abbrev Rule (α : Type) := Option (Slot α) → Option (Slot α) → Turn α

namespace Rule

/-- The turns of the merge for calls that either list takes. -/
def union (merge : α → α → α) : Rule α
  | some ⟨.required, x⟩, some ⟨.required, y⟩ => .go [⟨.required, merge x y⟩] .both
  | some ⟨.rest, x⟩, some ⟨.rest, y⟩ => .go [⟨.rest, merge x y⟩] .both
  | some ⟨_, x⟩, some ⟨.rest, y⟩ => .go [⟨.optional, merge x y⟩] .left
  | some ⟨.rest, x⟩, some ⟨_, y⟩ => .go [⟨.optional, merge x y⟩] .right
  | some ⟨_, x⟩, some ⟨_, y⟩ => .go [⟨.optional, merge x y⟩] .both
  | some ⟨.rest, x⟩, none => .go [⟨.rest, x⟩] .left
  | some ⟨_, x⟩, none => .go [⟨.optional, x⟩] .left
  | none, some ⟨.rest, y⟩ => .go [⟨.rest, y⟩] .right
  | none, some ⟨_, y⟩ => .go [⟨.optional, y⟩] .right
  | none, none => .finish

/-- The turns of the merge for calls that both lists take. -/
def inter (merge : α → α → α) : Rule α
  | some ⟨.rest, x⟩, some ⟨.rest, y⟩ => .go [⟨.rest, merge x y⟩] .both
  | some ⟨.required, x⟩, some ⟨.rest, y⟩ => .go [⟨.required, merge x y⟩] .left
  | some ⟨.optional, x⟩, some ⟨.rest, y⟩ => .go [⟨.optional, merge x y⟩] .left
  | some ⟨.rest, x⟩, some ⟨.required, y⟩ => .go [⟨.required, merge x y⟩] .right
  | some ⟨.rest, x⟩, some ⟨.optional, y⟩ => .go [⟨.optional, merge x y⟩] .right
  | some ⟨.optional, x⟩, some ⟨.optional, y⟩ => .go [⟨.optional, merge x y⟩] .both
  | some ⟨_, x⟩, some ⟨_, y⟩ => .go [⟨.required, merge x y⟩] .both
  | some ⟨.required, _⟩, none => .refuse
  | none, some ⟨.required, _⟩ => .refuse
  | some _, none => .go [] .left
  | none, some _ => .go [] .right
  | none, none => .finish

end Rule

/-- A loop between two turns. -/
structure Sweep (α : Type) where
  left : Cursor α
  right : Cursor α
  out : Builder α := {}

namespace Sweep

def turn (rule : Rule α) (w : Sweep α) : Turn α := rule w.left.first? w.right.first?

def after (w : Sweep α) (pushes : List (Slot α)) : Side → Sweep α
  | .left => ⟨w.left.drop, w.right, pushes.foldl Builder.push w.out⟩
  | .right => ⟨w.left, w.right.drop, pushes.foldl Builder.push w.out⟩
  | .both => ⟨w.left.drop, w.right.drop, pushes.foldl Builder.push w.out⟩

/-- Where a loop over two lists comes, with what it pushed in each of the turns before. -/
inductive Reaches (rule : Rule α) (p q : Params α) : List (List (Slot α)) → Sweep α → Prop
  | start : Reaches rule p q [] ⟨⟨p, 0⟩, ⟨q, 0⟩, {}⟩
  | next {log : List (List (Slot α))} {w : Sweep α} {pushes : List (Slot α)} {drops : Side}
      (h : Reaches rule p q log w) (hturn : w.turn rule = .go pushes drops) :
      Reaches rule p q (log ++ [pushes]) (w.after pushes drops)

end Sweep

/-! ## One position after the other -/

namespace Rule

/-- Which cursors move on: a rest slot is passed only when the other list has no fixed slot left. -/
def drops : Option (Slot α) → Option (Slot α) → Side
  | none, _ => .right
  | _, none => .left
  | some ⟨.rest, _⟩, some ⟨.rest, _⟩ => .both
  | some ⟨.rest, _⟩, some _ => .right
  | some _, some ⟨.rest, _⟩ => .left
  | some _, some _ => .both

/-- The rule to push what comes of a position unless the lists clash there. -/
def ofPositions (f : Option (Slot α) × Option (Slot α) → Option (Slot α))
    (clash : Option (Slot α) × Option (Slot α) → Bool) : Rule α
  | none, none => .finish
  | s, t => if clash (s, t) then .refuse else .go (f (s, t)).toList (drops s t)

theorem union_eq (merge : α → α → α) :
    union merge = ofPositions (Slot.union? merge) fun _ => false := by
  funext s t
  rcases s with _ | ⟨_ | _ | _, x⟩ <;> rcases t with _ | ⟨_ | _ | _, y⟩ <;> rfl

theorem inter_eq (merge : α → α → α) :
    inter merge = ofPositions (Slot.inter? merge) Slot.clash := by
  funext s t
  rcases s with _ | ⟨_ | _ | _, x⟩ <;> rcases t with _ | ⟨_ | _ | _, y⟩ <;> rfl

variable {f : Option (Slot α) × Option (Slot α) → Option (Slot α)}
variable {clash : Option (Slot α) × Option (Slot α) → Bool} {s t : Option (Slot α)}

theorem ofPositions_of_some (h : ¬(s = none ∧ t = none)) :
    ofPositions f clash s t =
      if clash (s, t) then .refuse else .go (f (s, t)).toList (drops s t) := by
  cases s with
  | some s => rfl
  | none =>
      cases t with
      | some t => rfl
      | none => exact absurd ⟨rfl, rfl⟩ h

theorem ofPositions_eq_finish_iff :
    ofPositions f clash s t = .finish ↔ s = none ∧ t = none := by
  by_cases h : s = none ∧ t = none
  · obtain ⟨rfl, rfl⟩ := h
    exact iff_of_true rfl ⟨rfl, rfl⟩
  · rw [ofPositions_of_some h]
    refine iff_of_false ?_ h
    split <;> simp

theorem clash_of_ofPositions_eq_refuse (h : ofPositions f clash s t = .refuse) :
    clash (s, t) = true := by
  by_cases hnone : s = none ∧ t = none
  · rw [ofPositions_eq_finish_iff.mpr hnone] at h
    cases h
  · rw [ofPositions_of_some hnone] at h
    split at h
    next hclash => exact hclash
    next => cases h

theorem of_ofPositions_eq_go {pushes : List (Slot α)} {side : Side}
    (h : ofPositions f clash s t = .go pushes side) :
    ¬(s = none ∧ t = none) ∧ clash (s, t) = false ∧ (f (s, t)).toList = pushes ∧
      drops s t = side := by
  have hsome : ¬(s = none ∧ t = none) := by
    intro hnone
    rw [ofPositions_eq_finish_iff.mpr hnone] at h
    cases h
  rw [ofPositions_of_some hsome] at h
  split at h
  next => cases h
  next hclash =>
    obtain ⟨hpushes, hdrops⟩ := Turn.go.inj h
    exact ⟨hsome, Bool.not_eq_true _ ▸ hclash, hpushes, hdrops⟩

end Rule

namespace Cursor

/-- Where a cursor is after a turn, by the slot under the other cursor. -/
def passed (c : Cursor α) (other : Option (Slot α)) : Cursor α :=
  match c.first? with
  | none => c
  | some s => if s.kind = .rest ∧ ∃ t ∈ other, t.kind ≠ .rest then c else c.drop

theorem passed_of_none {c : Cursor α} (h : c.first? = none) (other : Option (Slot α)) :
    c.passed other = c := by
  simp [passed, h]

theorem passed_of_some {c : Cursor α} {s : Slot α} (h : c.first? = some s)
    (other : Option (Slot α)) :
    c.passed other = if s.kind = .rest ∧ ∃ t ∈ other, t.kind ≠ .rest then c else c.drop := by
  simp [passed, h]

theorem first?_eq_slot? {c : Cursor α} (h : c.index ≤ c.list.fixedSize) :
    c.first? = c.list.slot? c.index := by
  have hfixed : c.list.fixedSize = c.list.required.length + c.list.optional.length := rfl
  rw [first?, Params.slot?, Params.fixedSlots, List.getElem?_append, List.length_map,
    List.getElem?_map, List.getElem?_map]
  split
  next hr => simp [hr]
  next hr =>
    split
    next hf =>
      have ho : c.index - c.list.required.length < c.list.optional.length := by omega
      simp [ho]
    next hf =>
      have ho : c.list.optional.length ≤ c.index - c.list.required.length := by omega
      rw [if_pos (by omega)]
      simp [ho]

theorem first?_eq_none_of_lt {c : Cursor α} (h : c.list.fixedSize < c.index) :
    c.first? = none := by
  have hsize : c.list.required.length ≤ c.list.fixedSize := Nat.le_add_right _ _
  rw [first?, if_neg (by omega), if_neg (by omega), if_neg (by omega)]

/-- Where the cursor of a list is to be in a turn, if the turn for the rest slots comes after so many
others: at the position of the turn or else at the rest slot, and past all slots in the end. -/
structure At (c : Cursor α) (p : Params α) (last i : Nat) : Prop where
  list : c.list = p
  within : i ≤ last → c.index = min i p.fixedSize
  beyond : last < i → c.first? = none

theorem At.first? {c : Cursor α} {p : Params α} {last i : Nat} (h : c.At p last i)
    (hi : i ≤ last) : c.first? = p.slot? i := by
  have hindex := h.within hi
  rw [first?_eq_slot? (by rw [hindex, h.list]; exact Nat.min_le_right _ _), hindex, h.list]
  by_cases hle : i ≤ p.fixedSize
  · rw [Nat.min_eq_left hle]
  · have hbeyond : p.fixedSize ≤ i := by omega
    rw [Nat.min_eq_right hbeyond, Params.slot?_of_le (Nat.le_refl _), Params.slot?_of_le hbeyond]

theorem at_start (p : Params α) (last : Nat) : At ⟨p, 0⟩ p last 0 where
  list := rfl
  within _ := (Nat.zero_min _).symm
  beyond h := absurd h (Nat.not_lt_zero _)

theorem At.passed {c : Cursor α} {p q : Params α} {last i : Nat} (h : c.At p last i)
    (hi : i ≤ last) (hlast : last = max p.fixedSize q.fixedSize) :
    (c.passed (q.slot? i)).At p last (i + 1) := by
  have hfirst := h.first? hi
  have hindex := h.within hi
  cases hs : p.slot? i with
  | none =>
      have hle : ¬i < p.fixedSize := by simp [← Params.exists_slot?_iff, hs]
      rw [passed_of_none (hfirst.trans hs)]
      exact ⟨h.list, fun _ => by omega, fun _ => hfirst.trans hs⟩
  | some s =>
      have hkind : s.kind ≠ .rest ↔ i < p.fixedSize := by simp [← Params.exists_slot?_iff, hs]
      have hother := Params.exists_slot?_iff q i
      rw [passed_of_some (hfirst.trans hs)]
      split
      next hstays =>
        -- at the rest slot, with a fixed slot in the other list: there are turns to come
        have hle : ¬i < p.fixedSize := fun hlt => hkind.mpr hlt hstays.1
        have hlt : i < q.fixedSize := hother.mp hstays.2
        exact ⟨h.list, fun _ => by omega, fun _ => by omega⟩
      next hmoves =>
        refine ⟨h.list, fun hnext => ?_, fun hnext => ?_⟩
        -- before the turn for the rest slots, only a fixed slot is passed
        · have hlt : i < p.fixedSize := by
            apply Classical.byContradiction
            intro hle
            exact hmoves ⟨not_not.mp (mt hkind.mp hle), hother.mpr (by omega)⟩
          show c.index + 1 = _
          omega
        · apply first?_eq_none_of_lt
          show c.list.fixedSize < c.index + 1
          rw [h.list]
          omega

end Cursor

namespace Sweep

open Params (positions)

variable {f : Option (Slot α) × Option (Slot α) → Option (Slot α)}
variable {clash : Option (Slot α) × Option (Slot α) → Bool}
variable {p q : Params α} {log : List (List (Slot α))} {w : Sweep α}

theorem after_drops (w : Sweep α) (pushes : List (Slot α))
    (h : ¬(w.left.first? = none ∧ w.right.first? = none)) :
    w.after pushes (Rule.drops w.left.first? w.right.first?) =
      ⟨w.left.passed w.right.first?, w.right.passed w.left.first?,
        pushes.foldl Builder.push w.out⟩ := by
  unfold Cursor.passed
  generalize w.left.first? = s at h ⊢
  generalize w.right.first? = t at h ⊢
  rcases s with _ | ⟨_ | _ | _, x⟩ <;> rcases t with _ | ⟨_ | _ | _, y⟩ <;>
    simp_all [Rule.drops, after]

/-- A loop takes one position after the other. -/
structure Follows (f : Option (Slot α) × Option (Slot α) → Option (Slot α))
    (clash : Option (Slot α) × Option (Slot α) → Bool) (p q : Params α)
    (log : List (List (Slot α))) (w : Sweep α) : Prop where
  left : w.left.At p (max p.fixedSize q.fixedSize) log.length
  right : w.right.At q (max p.fixedSize q.fixedSize) log.length
  length_le : log.length ≤ max p.fixedSize q.fixedSize + 1
  log_eq : log = ((positions p q).take log.length).map fun s => (f s).toList
  clear : ∀ s ∈ (positions p q).take log.length, clash s = false
  out_eq : w.out = log.flatten.foldl Builder.push {}

theorem Follows.length_le_of_some (h : Follows f clash p q log w)
    (hsome : ¬(w.left.first? = none ∧ w.right.first? = none)) :
    log.length ≤ max p.fixedSize q.fixedSize := by
  apply Nat.le_of_not_lt
  intro hlt
  exact hsome ⟨h.left.beyond hlt, h.right.beyond hlt⟩

theorem Follows.getElem?_positions (h : Follows f clash p q log w)
    (hsome : ¬(w.left.first? = none ∧ w.right.first? = none)) :
    (positions p q)[log.length]? = some (w.left.first?, w.right.first?) := by
  have hi := h.length_le_of_some hsome
  rw [Params.getElem?_positions, if_pos hi, h.left.first? hi, h.right.first? hi]

theorem Follows.next (h : Follows f clash p q log w) {pushes : List (Slot α)} {drops : Side}
    (hturn : w.turn (.ofPositions f clash) = .go pushes drops) :
    Follows f clash p q (log ++ [pushes]) (w.after pushes drops) := by
  obtain ⟨hsome, hclash, rfl, rfl⟩ := Rule.of_ofPositions_eq_go hturn
  have hi := h.length_le_of_some hsome
  have htake : (positions p q).take (log.length + 1) =
      (positions p q).take log.length ++ [(w.left.first?, w.right.first?)] := by
    rw [List.take_add_one, h.getElem?_positions hsome]
    rfl
  rw [after_drops w _ hsome]
  constructor
  case left =>
    rw [List.length_append, h.right.first? hi]
    exact h.left.passed hi rfl
  case right =>
    rw [List.length_append, h.left.first? hi]
    exact h.right.passed hi (Nat.max_comm _ _)
  case length_le =>
    rw [List.length_append]
    exact Nat.succ_le_succ hi
  case log_eq =>
    rw [List.length_append, List.length_singleton, htake, List.map_append, ← h.log_eq]
    rfl
  case clear =>
    rw [List.length_append, List.length_singleton, htake]
    intro s hs
    rcases List.mem_append.mp hs with hs | hs
    · exact h.clear s hs
    · exact List.mem_singleton.mp hs ▸ hclash
  case out_eq => rw [List.flatten_append, List.foldl_append, ← h.out_eq, List.flatten_singleton]

theorem Reaches.follows (h : Reaches (.ofPositions f clash) p q log w) :
    Follows f clash p q log w := by
  induction h with
  | start =>
      exact ⟨Cursor.at_start p _, Cursor.at_start q _, Nat.zero_le _, rfl, by simp, rfl⟩
  | next h hturn ih => exact ih.next hturn

/-- A loop comes to an end. -/
theorem exists_ended (f : Option (Slot α) × Option (Slot α) → Option (Slot α))
    (clash : Option (Slot α) × Option (Slot α) → Bool) (p q : Params α) :
    ∃ log w, Reaches (.ofPositions f clash) p q log w ∧
      (w.turn (.ofPositions f clash) = .finish ∨ w.turn (.ofPositions f clash) = .refuse) := by
  by_contra hnever
  -- a loop that never ends would have more turns than there are positions
  have hlonger : ∀ n, ∃ log w, Reaches (.ofPositions f clash) p q log w ∧ log.length = n := by
    intro n
    induction n with
    | zero => exact ⟨[], _, .start, rfl⟩
    | succ n ih =>
        obtain ⟨log, w, hw, hlength⟩ := ih
        cases hturn : w.turn (.ofPositions f clash) with
        | finish => exact absurd ⟨log, w, hw, .inl hturn⟩ hnever
        | refuse => exact absurd ⟨log, w, hw, .inr hturn⟩ hnever
        | go pushes drops => exact ⟨_, _, hw.next hturn, by simp [hlength]⟩
  obtain ⟨log, w, hw, hlength⟩ := hlonger (max p.fixedSize q.fixedSize + 2)
  have := hw.follows.length_le
  omega

theorem Follows.flatten_log (h : Follows f clash p q log w) :
    log.flatten = ((positions p q).take log.length).filterMap f := by
  rw [List.filterMap_eq_flatMap_toList, List.flatMap_def]
  exact congrArg List.flatten h.log_eq

theorem Follows.eq_none_of_finish (h : Follows f clash p q log w)
    (hturn : w.turn (.ofPositions f clash) = .finish) :
    ∀ s ∈ (positions p q).drop log.length, s = (none, none) := by
  -- both cursors have come to an end, and there are no slots beyond it
  obtain ⟨hleft, hright⟩ := Rule.ofPositions_eq_finish_iff.mp hturn
  intro s hs
  obtain ⟨i, hi⟩ := List.mem_iff_getElem?.mp hs
  rw [List.getElem?_drop, Params.getElem?_positions] at hi
  split at hi
  next hle =>
    rw [h.left.first? (by omega), Params.slot?_eq, Option.map_eq_none_iff] at hleft
    rw [h.right.first? (by omega), Params.slot?_eq, Option.map_eq_none_iff] at hright
    have hp := Params.positional?_eq_none_of_le (Nat.le_add_right log.length i) hleft
    have hq := Params.positional?_eq_none_of_le (Nat.le_add_right log.length i) hright
    rw [← Option.some.inj hi, Params.slot?_eq, Params.slot?_eq, hp, hq]
    rfl
  next => cases hi

theorem Follows.exists_clash_of_refuse (h : Follows f clash p q log w)
    (hturn : w.turn (.ofPositions f clash) = .refuse) : ∃ s ∈ positions p q, clash s = true := by
  have hsome : ¬(w.left.first? = none ∧ w.right.first? = none) := by
    intro hnone
    rw [turn, Rule.ofPositions_eq_finish_iff.mpr hnone] at hturn
    cases hturn
  exact ⟨_, List.mem_of_getElem? (h.getElem?_positions hsome),
    Rule.clash_of_ofPositions_eq_refuse hturn⟩

end Sweep

end Subtyping
