import Subtyping.Params.Basic

/-!
# Merging parameter lists

Two parameter lists are lined up position by position (`positions`), and each position gives at
most one slot of the merged list. `unionWith` takes every call that either list takes,
`interWith?` only the calls that both take; it answers nothing when one list asks for an argument
that the other has no slot for. Contents that meet are combined by the given function, the first
list's content first.

A rest slot stands in for the fixed slots that its list lacks and is itself merged last, so
`(*Integer)` beside `(String, ?Symbol)` is read as `(Integer, Integer, *Integer)`.
-/

namespace Subtyping

namespace SlotKind

/-- The kind of a slot that only one of two lists has. -/
def alone : SlotKind → SlotKind
  | .rest => .rest
  | _ => .optional

/-- The kind of a slot that takes what either of two slots takes. -/
def union : SlotKind → SlotKind → SlotKind
  | .required, .required => .required
  | .rest, .rest => .rest
  | _, _ => .optional

/-- The kind of a slot that takes what both of two slots take. -/
def inter : SlotKind → SlotKind → SlotKind
  | .required, _ => .required
  | _, .required => .required
  | .rest, .rest => .rest
  | _, _ => .optional

end SlotKind

namespace Slot

variable {α : Type}

/-- The slot at a position for calls that either side takes. -/
def union? (merge : α → α → α) : Option (Slot α) × Option (Slot α) → Option (Slot α)
  | (some s, some t) => some ⟨s.kind.union t.kind, merge s.content t.content⟩
  | (some s, none) => some ⟨s.kind.alone, s.content⟩
  | (none, some t) => some ⟨t.kind.alone, t.content⟩
  | (none, none) => none

/-- The slot at a position for calls that both sides take. -/
def inter? (merge : α → α → α) : Option (Slot α) × Option (Slot α) → Option (Slot α)
  | (some s, some t) => some ⟨s.kind.inter t.kind, merge s.content t.content⟩
  | _ => none

/-- Whether one side of a position requires an argument that the other has no slot for. -/
def clash : Option (Slot α) × Option (Slot α) → Bool
  | (some s, none) => s.kind == .required
  | (none, some t) => t.kind == .required
  | _ => false

end Slot

namespace Params

variable {α : Type}

/-- The slots of two lists position by position, the rest slots at the last position. -/
def positions (p q : Params α) : List (Option (Slot α) × Option (Slot α)) :=
  List.zipWithAll (fun s t => (s.or p.restSlot, t.or q.restSlot)) p.fixedSlots q.fixedSlots ++
    [(p.restSlot, q.restSlot)]

/-- A parameter list with the given slots and no keywords. -/
def ofSlots (slots : List (Slot α)) : Params α where
  required := (slots.filter (·.kind == .required)).map (·.content)
  optional := (slots.filter (·.kind == .optional)).map (·.content)
  rest := (slots.find? (·.kind == .rest)).map (·.content)

section Union

variable (merge : α → α → α) (p q : Params α)

/-- The positional slots for calls that either list takes. -/
def unionSlots : List (Slot α) := (positions p q).filterMap (Slot.union? merge)

/-- The keywords that both lists require. -/
def bothRequired : List (Atom × α) :=
  p.requiredKeywords.filterMap fun e =>
    (Assoc.get? e.1 q.requiredKeywords).map fun y => (e.1, merge e.2 y)

/-- The keywords that a list names, merged with what the other list passes them to. -/
def offered : List (Atom × α) :=
  (p.requiredKeywords ++ p.optionalKeywords).map fun e =>
    (e.1, match q.keyword? e.1 with
      | some y => merge e.2 y
      | none => e.2)

/-- The parameter list for calls that either list takes. A slot that only one list requires
becomes optional. -/
def unionWith : Params α :=
  let required := bothRequired merge p q
  { ofSlots (unionSlots merge p q) with
    requiredKeywords := required
    optionalKeywords := Assoc.ofFirsts <|
      (offered merge p q ++ offered merge q p).filter fun e => !Assoc.has e.1 required
    restKeywords := Option.merge merge p.restKeywords q.restKeywords }

end Union

section Inter

variable (merge : α → α → α) (p q : Params α)

/-- The positional slots for calls that both lists take. -/
def interSlots : List (Slot α) := (positions p q).filterMap (Slot.inter? merge)

/-- The required keywords of a list that the other list takes. -/
def granted : List (Atom × α) :=
  p.requiredKeywords.filterMap fun e => (q.keyword? e.1).map fun y => (e.1, merge e.2 y)

/-- The optional keywords of a list that the other list takes without requiring them. -/
def spared : List (Atom × α) :=
  p.optionalKeywords.filterMap fun e =>
    ((Assoc.get? e.1 q.optionalKeywords).or q.restKeywords).map fun y => (e.1, merge e.2 y)

/-- Whether each list has a slot for every argument that the other requires. -/
def reconcilable : Bool :=
  (positions p q).all (fun s => !Slot.clash s) &&
    p.requiredKeywords.all (fun e => (q.keyword? e.1).isSome) &&
    q.requiredKeywords.all (fun e => (p.keyword? e.1).isSome)

/-- The parameter list for calls that both lists take, if there are any. A slot that either list
requires stays required. -/
def interWith : Params α :=
  let required := Assoc.ofFirsts (granted merge p q ++ granted merge q p)
  { ofSlots (interSlots merge p q) with
    requiredKeywords := required
    optionalKeywords := Assoc.ofFirsts <|
      (spared merge p q ++ spared merge q p).filter fun e => !Assoc.has e.1 required
    restKeywords := p.restKeywords.bind fun x => q.restKeywords.map fun y => merge x y }

/-- The parameter list for calls that both lists take, unless one of them asks for an argument that
the other has no slot for. -/
def interWith? : Option (Params α) :=
  if reconcilable p q then some (interWith merge p q) else none

end Inter

theorem interWith?_eq_none_iff (merge : α → α → α) (p q : Params α) :
    interWith? merge p q = none ↔ reconcilable p q = false := by
  cases h : reconcilable p q <;> simp [interWith?, h]

theorem interWith?_eq_some_iff (merge : α → α → α) (p q r : Params α) :
    interWith? merge p q = some r ↔ reconcilable p q = true ∧ interWith merge p q = r := by
  cases h : reconcilable p q <;> simp [interWith?, h]

theorem length_zipWithAll_eq {β γ δ : Type} (f : Option β → Option γ → δ) (l : List β)
    (m : List γ) : (List.zipWithAll f l m).length = max l.length m.length := by
  induction l generalizing m with
  | nil => simp
  | cons x l ih =>
      cases m with
      | nil => simp
      | cons y m => simp [ih, Nat.succ_max_succ]

end Params

end Subtyping
