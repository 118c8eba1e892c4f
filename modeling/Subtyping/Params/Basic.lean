import Subtyping.Atom
import Subtyping.Assoc.Basic

/-!
# Parameter lists

A parameter list has positional slots (required, then optional, then at most one rest slot) and
keyword slots (required, optional, and at most one slot for all other keywords). What a slot
carries is left open: nothing below depends on it.
-/

namespace Subtyping

/-- What a call may or must put into a positional slot. -/
inductive SlotKind
  | required
  | optional
  | rest
deriving DecidableEq

structure Slot (α : Type) where
  kind : SlotKind
  content : α
deriving DecidableEq

/-- The slots of a parameter list. Keywords stand in ascending order, each once. -/
structure Params (α : Type) where
  required : List α := []
  optional : List α := []
  rest : Option α := none
  requiredKeywords : List (Atom × α) := []
  optionalKeywords : List (Atom × α) := []
  restKeywords : Option α := none
deriving DecidableEq

def Slot.map {α β : Type} (f : α → β) (s : Slot α) : Slot β := ⟨s.kind, f s.content⟩

namespace Params

variable {α β : Type}

def IsSorted (p : Params α) : Prop :=
  Assoc.IsSorted p.requiredKeywords ∧ Assoc.IsSorted p.optionalKeywords

def map (f : α → β) (p : Params α) : Params β where
  required := p.required.map f
  optional := p.optional.map f
  rest := p.rest.map f
  requiredKeywords := Assoc.mapValues f p.requiredKeywords
  optionalKeywords := Assoc.mapValues f p.optionalKeywords
  restKeywords := p.restKeywords.map f

/-- The contents of all slots: positional ones in call order, then keywords. -/
def contents (p : Params α) : List α :=
  p.required ++ p.optional ++ p.rest.toList ++ Assoc.values p.requiredKeywords ++
    Assoc.values p.optionalKeywords ++ p.restKeywords.toList

def fixedSize (p : Params α) : Nat := p.required.length + p.optional.length

def fixed (p : Params α) : List α := p.required ++ p.optional

/-- The fixed positional slots in call order. -/
def fixedSlots (p : Params α) : List (Slot α) :=
  p.required.map (Slot.mk .required) ++ p.optional.map (Slot.mk .optional)

def restSlot (p : Params α) : Option (Slot α) := p.rest.map (Slot.mk .rest)

/-- Required and optional keywords in one table; a keyword that is both counts as required. -/
def namedKeywords (p : Params α) : List (Atom × α) :=
  p.requiredKeywords.foldl (fun m e => Assoc.insert e.1 e.2 m) p.optionalKeywords

/-- The content of the slot that takes a keyword: required, else optional, else the slot for all
other keywords. -/
def keyword? (p : Params α) (k : Atom) : Option α :=
  ((Assoc.get? k p.requiredKeywords).or (Assoc.get? k p.optionalKeywords)).or p.restKeywords

/-- The content of the slot that takes the positional argument at an index: a fixed one, else the
rest slot. -/
def positional? (p : Params α) (i : Nat) : Option α := p.fixed[i]?.or p.rest

theorem length_fixed (p : Params α) : p.fixed.length = p.fixedSize := by
  simp [fixed, fixedSize]

theorem length_fixedSlots (p : Params α) : p.fixedSlots.length = p.fixedSize := by
  simp [fixedSlots, fixedSize]

theorem contents_map (f : α → β) (p : Params α) : (p.map f).contents = p.contents.map f := by
  cases p with
  | mk r o s rk ok sk => cases s <;> cases sk <;> simp [map, contents]

theorem map_id (p : Params α) : p.map id = p := by
  simp [map, Assoc.mapValues]

theorem map_map {γ : Type} (f : α → β) (g : β → γ) (p : Params α) :
    (p.map f).map g = p.map fun x => g (f x) := by
  simp [map, Assoc.mapValues, Function.comp_def]

theorem map_congr {f g : α → β} {p : Params α} (h : ∀ x ∈ p.contents, f x = g x) :
    p.map f = p.map g := by
  rcases p with ⟨r, o, s, rk, ok, sk⟩
  simp only [contents, List.mem_append, Option.mem_toList, Assoc.values, List.mem_map] at h
  simp only [map, Params.mk.injEq]
  refine ⟨List.map_congr_left fun x hx => h x (by simp [hx]),
    List.map_congr_left fun x hx => h x (by simp [hx]),
    Option.map_congr fun x hx => h x (by simp [hx]),
    List.map_congr_left fun e he => ?_, List.map_congr_left fun e he => ?_,
    Option.map_congr fun x hx => h x (by simp [hx])⟩
  · rw [h e.2 (.inl (.inl (.inr ⟨e, he, rfl⟩)))]
  · rw [h e.2 (.inl (.inr ⟨e, he, rfl⟩))]

theorem keyword?_map (f : α → β) (p : Params α) (k : Atom) :
    (p.map f).keyword? k = (p.keyword? k).map f := by
  cases h : Assoc.get? k p.requiredKeywords <;> cases h' : Assoc.get? k p.optionalKeywords <;>
    simp [map, keyword?, h, h']

end Params

end Subtyping
