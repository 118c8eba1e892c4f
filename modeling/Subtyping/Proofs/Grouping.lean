/-!
# Merging in any order and grouping

An operation that is commutative, associative and idempotent makes the same of the members of a set in
whatever order, grouping and repetition they come (`SemilatticeOn.value_eq`). If only the images of
things are merged so, the things are up to what their images leave open (`Grouping.value_rel`).
-/

namespace Subtyping

/-- The members of a set in some order and grouping. -/
inductive Grouping (β : Type)
  | single (x : β)
  | pair (g h : Grouping β)

namespace Grouping

variable {β γ : Type}

def members : Grouping β → List β
  | single x => [x]
  | pair g h => g.members ++ h.members

def map (f : β → γ) : Grouping β → Grouping γ
  | single x => single (f x)
  | pair g h => pair (g.map f) (h.map f)

/-- What comes of merging the members pairwise. -/
def value (op : β → β → β) : Grouping β → β
  | single x => x
  | pair g h => op (g.value op) (h.value op)

theorem members_map (f : β → γ) (g : Grouping β) : (g.map f).members = g.members.map f := by
  induction g with
  | single x => rfl
  | pair g h ihg ihh => rw [map, members, members, ihg, ihh, List.map_append]

variable {P : β → Prop} {op : β → β → β} {g : Grouping β}

theorem value_closed (g : Grouping β) (hclosed : ∀ {x y}, P x → P y → P (op x y))
    (hg : ∀ x ∈ g.members, P x) : P (g.value op) := by
  induction g with
  | single x => exact hg x (List.mem_singleton_self x)
  | pair g h ihg ihh =>
      exact hclosed (ihg fun x hx => hg x (List.mem_append_left _ hx))
        (ihh fun x hx => hg x (List.mem_append_right _ hx))

theorem map_value {op' : γ → γ → γ} {f : β → γ} (hclosed : ∀ {x y}, P x → P y → P (op x y))
    (hf : ∀ {x y}, P x → P y → f (op x y) = op' (f x) (f y)) (hg : ∀ x ∈ g.members, P x) :
    f (g.value op) = (g.map f).value op' := by
  induction g with
  | single x => rfl
  | pair g h ihg ihh =>
      have hgm : ∀ x ∈ g.members, P x := fun x hx => hg x (List.mem_append_left _ hx)
      have hhm : ∀ x ∈ h.members, P x := fun x hx => hg x (List.mem_append_right _ hx)
      rw [value, hf (g.value_closed hclosed hgm) (h.value_closed hclosed hhm), ihg hgm, ihh hhm]
      rfl

end Grouping

/-- An operation on the things of a kind for which order, grouping and repetition do not matter. -/
structure SemilatticeOn {β : Type} (P : β → Prop) (op : β → β → β) : Prop where
  closed : ∀ {x y}, P x → P y → P (op x y)
  comm : ∀ {x y}, P x → P y → op x y = op y x
  assoc : ∀ {x y z}, P x → P y → P z → op (op x y) z = op x (op y z)
  self : ∀ {x}, P x → op x x = x

namespace SemilatticeOn

variable {β : Type} {P : β → Prop} {op : β → β → β} (hop : SemilatticeOn P op) {g h : Grouping β}
include hop

theorem value_closed (hg : ∀ x ∈ g.members, P x) : P (g.value op) := g.value_closed hop.closed hg

theorem value_op (hg : ∀ x ∈ g.members, P x) {x : β} (hx : x ∈ g.members) :
    op (g.value op) x = g.value op := by
  induction g with
  | single y =>
      rw [List.mem_singleton.mp hx]
      exact hop.self (hg y (List.mem_singleton_self y))
  | pair g h ihg ihh =>
      have hgm : ∀ y ∈ g.members, P y := fun y hy => hg y (List.mem_append_left _ hy)
      have hhm : ∀ y ∈ h.members, P y := fun y hy => hg y (List.mem_append_right _ hy)
      have hpg := hop.value_closed hgm
      have hph := hop.value_closed hhm
      have hpx := hg x hx
      rw [Grouping.value]
      rcases List.mem_append.mp hx with hx | hx
      -- the member is brought next to the part that it is in
      · rw [hop.comm hpg hph, hop.assoc hph hpg hpx, ihg hgm hx]
      · rw [hop.assoc hpg hph hpx, ihh hhm hx]

theorem op_value {y : β} (hy : P y) (hg : ∀ x ∈ g.members, P x)
    (habsorbs : ∀ x ∈ g.members, op y x = y) : op y (g.value op) = y := by
  induction g with
  | single x => exact habsorbs x (List.mem_singleton_self x)
  | pair g h ihg ihh =>
      have hgm : ∀ x ∈ g.members, P x := fun x hx => hg x (List.mem_append_left _ hx)
      have hhm : ∀ x ∈ h.members, P x := fun x hx => hg x (List.mem_append_right _ hx)
      rw [Grouping.value, ← hop.assoc hy (hop.value_closed hgm) (hop.value_closed hhm),
        ihg hgm fun x hx => habsorbs x (List.mem_append_left _ hx),
        ihh hhm fun x hx => habsorbs x (List.mem_append_right _ hx)]

/-- In whatever order and grouping the members of a set are merged, the same comes of it. -/
theorem value_eq (hg : ∀ x ∈ g.members, P x) (hgh : ∀ x, x ∈ g.members ↔ x ∈ h.members) :
    g.value op = h.value op := by
  have hh : ∀ x ∈ h.members, P x := fun x hx => hg x ((hgh x).mpr hx)
  have hgv := hop.value_closed hg
  have hhv := hop.value_closed hh
  calc g.value op
      = op (g.value op) (h.value op) :=
        (hop.op_value hgv hh fun x hx => hop.value_op hg ((hgh x).mpr hx)).symm
    _ = op (h.value op) (g.value op) := hop.comm hgv hhv
    _ = h.value op := hop.op_value hhv hg fun x hx => hop.value_op hh ((hgh x).mp hx)

end SemilatticeOn

/-- Things of which only images are merged independently of order, grouping and repetition are so
merged up to what equal images say of them. -/
theorem Grouping.value_rel {β γ : Type} {P : β → Prop} {Q : γ → Prop} {op : β → β → β}
    {op' : γ → γ → γ} {f : β → γ} {r : β → β → Prop} (hop : SemilatticeOn Q op')
    (hclosed : ∀ {x y}, P x → P y → P (op x y))
    (hf : ∀ {x y}, P x → P y → f (op x y) = op' (f x) (f y)) (hQ : ∀ {x}, P x → Q (f x))
    (hr : ∀ {x y}, P x → P y → f x = f y → r x y) {g h : Grouping β} (hg : ∀ x ∈ g.members, P x)
    (hgh : ∀ x, x ∈ g.members ↔ x ∈ h.members) : r (g.value op) (h.value op) := by
  have hh : ∀ x ∈ h.members, P x := fun x hx => hg x ((hgh x).mpr hx)
  apply hr (g.value_closed hclosed hg) (h.value_closed hclosed hh)
  rw [Grouping.map_value hclosed hf hg, Grouping.map_value hclosed hf hh]
  apply hop.value_eq
  · rw [Grouping.members_map]
    exact List.forall_mem_map.mpr fun x hx => hQ (hg x hx)
  · intro y
    rw [Grouping.members_map, Grouping.members_map, List.mem_map, List.mem_map]
    simp only [hgh]

end Subtyping
