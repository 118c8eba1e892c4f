import Subtyping.Params.CallShape
import Subtyping.Params.Pairing
import Subtyping.Proofs.Params.Slots

/-!
# Which slots are paired

Two positional slots are paired if they take the same argument (`mem_positionalPairs?_iff`), and it
does not matter what the contents are (`pairs?_map`).
-/

namespace Subtyping

namespace Assoc

variable {κ α : Type} [DecidableEq κ] [LT κ] [DecidableLT κ]

theorem mem_of_mem_insert {k : κ} {x : α} {m : List (κ × α)} {e : κ × α}
    (h : e ∈ insert k x m) : e = (k, x) ∨ e ∈ m := by
  induction m with
  | nil => exact .inl (List.mem_singleton.mp h)
  | cons f m ih =>
      rw [insert] at h
      split at h
      · exact (List.mem_cons.mp h).imp_right (List.mem_cons_of_mem f)
      · split at h
        · exact List.mem_cons.mp h
        · rcases List.mem_cons.mp h with rfl | h
          · exact .inr List.mem_cons_self
          · exact (ih h).imp_right (List.mem_cons_of_mem f)

theorem mapValues_insert {β : Type} (f : α → β) (k : κ) (x : α) (m : List (κ × α)) :
    mapValues f (insert k x m) = insert k (f x) (mapValues f m) := by
  induction m with
  | nil => rfl
  | cons e m ih =>
      have hcons : ∀ n : List (κ × α), mapValues f (e :: n) = (e.1, f e.2) :: mapValues f n :=
        fun n => rfl
      rw [insert, hcons, insert]
      by_cases hk : k = e.1
      · rw [if_pos hk, if_pos hk]
        rfl
      · by_cases hlt : k < e.1
        · rw [if_neg hk, if_neg hk, if_pos hlt, if_pos hlt]
          rfl
        · rw [if_neg hk, if_neg hk, if_neg hlt, if_neg hlt, hcons, ih]

end Assoc

namespace Params

variable {α : Type}

theorem mapM_eq_some_iff {β γ : Type} {f : β → Option γ} {xs : List β} {ys : List γ} :
    xs.mapM f = some ys ↔ xs.map f = ys.map some := by
  induction xs generalizing ys with
  | nil => cases ys <;> simp
  | cons x xs ih =>
      cases hx : f x with
      | none => cases ys <;> simp [hx]
      | some y =>
          cases ys with
          | nil => cases hm : xs.mapM f <;> simp [hx, hm]
          | cons z zs =>
              rw [List.mapM_cons, hx, List.map_cons, hx, List.map_cons, List.cons.injEq, ← ih]
              cases xs.mapM f <;> simp

theorem mem_iff_of_mapM {β γ : Type} {f : β → Option γ} {xs : List β} {ys : List γ}
    (h : xs.mapM f = some ys) {y : γ} : y ∈ ys ↔ ∃ x ∈ xs, f x = some y := by
  have hmap : y ∈ ys ↔ some y ∈ ys.map some := by simp
  rw [hmap, ← mapM_eq_some_iff.mp h, List.mem_map]

theorem pair_eq_some_iff {x y : Option α} {e : α × α} :
    (x.bind fun a => y.map fun b => (a, b)) = some e ↔ x = some e.1 ∧ y = some e.2 := by
  cases x <;> cases y <;> simp [Prod.ext_iff]

theorem mem_contents_of_restKeywords {p : Params α} {x : α} (h : p.restKeywords = some x) :
    x ∈ p.contents := by
  simp [contents, h]

section Positional

variable {p q : Params α} {pairs : List (α × α)} {e : α × α}

private theorem mem_zip_iff {xs ys : List α} :
    e ∈ xs.zip ys ↔ ∃ i : Nat, xs[i]? = some e.1 ∧ ys[i]? = some e.2 := by
  rw [List.mem_iff_getElem?]
  exact exists_congr fun i => List.getElem?_zip_eq_some

private theorem lt_fixedSize_of_getElem? {i : Nat} {x : α} (h : p.fixed[i]? = some x) :
    i < p.fixedSize := by
  obtain ⟨hi, _⟩ := List.getElem?_eq_some_iff.mp h
  rwa [length_fixed] at hi

private theorem getElem?_rightpad_fixed {x : α} (hrest : p.rest = some x) {n i : Nat}
    (hi : i < max p.fixedSize n) : (p.fixed.rightpad n x)[i]? = p.positional? i := by
  rw [List.rightpad, List.getElem?_append, positional?, hrest, length_fixed]
  by_cases hlt : i < p.fixedSize
  · have hfixed : i < p.fixed.length := by rwa [length_fixed]
    rw [if_pos hlt, List.getElem?_eq_getElem hfixed, Option.some_or]
  · have hnone : p.fixed[i]? = none := by
      rw [List.getElem?_eq_none_iff, length_fixed]
      omega
    rw [if_neg hlt, hnone, Option.none_or, List.getElem?_replicate, if_pos (by omega)]

private theorem lt_of_getElem?_rightpad {x y : α} {n i : Nat}
    (h : (p.fixed.rightpad n x)[i]? = some y) : i < max p.fixedSize n := by
  obtain ⟨hi, _⟩ := List.getElem?_eq_some_iff.mp h
  rw [List.length_rightpad, length_fixed] at hi
  omega

/-- The paired positional slots are the slots for the same argument. -/
theorem mem_positionalPairs?_iff (h : positionalPairs? p q = some pairs) :
    e ∈ pairs ↔ ∃ i, p.positional? i = some e.1 ∧ q.positional? i = some e.2 := by
  have hfixed : ∀ {r : Params α} (i : Nat), r.rest = none → r.positional? i = r.fixed[i]? := by
    intro r i hr
    rw [positional?, hr, Option.or_none]
  unfold positionalPairs? at h
  cases hp : p.rest with
  | none =>
      cases hq : q.rest with
      | some y =>
          rw [hp, hq] at h
          cases h
      | none =>
          rw [hp, hq] at h
          obtain ⟨_, h⟩ := Option.ite_none_right_eq_some.mp h
          obtain rfl := Option.some.inj h
          simp only [mem_zip_iff, hfixed _ hp, hfixed _ hq]
  | some x =>
      cases hq : q.rest with
      | none =>
          rw [hp, hq] at h
          obtain rfl := Option.some.inj h
          simp only [mem_zip_iff, hfixed _ hq]
          refine exists_congr fun i => and_congr_left fun hi => ?_
          have hlt := lt_fixedSize_of_getElem? hi
          rw [getElem?_rightpad_fixed hp (by omega)]
      | some y =>
          rw [hp, hq] at h
          obtain rfl := Option.some.inj h
          rw [List.mem_append, mem_zip_iff, List.mem_singleton]
          constructor
          · rintro (⟨i, hi, hi'⟩ | rfl)
            · have hlt := lt_of_getElem?_rightpad hi
              rw [getElem?_rightpad_fixed hp hlt] at hi
              rw [getElem?_rightpad_fixed hq (by omega)] at hi'
              exact ⟨i, hi, hi'⟩
            · -- the rest slots take what comes after all fixed slots
              refine ⟨max p.fixedSize q.fixedSize, ?_, ?_⟩
              · rw [positional?_of_le (Nat.le_max_left _ _), hp]
              · rw [positional?_of_le (Nat.le_max_right _ _), hq]
          · rintro ⟨i, hi, hi'⟩
            by_cases hlt : i < max p.fixedSize q.fixedSize
            · have hlt' : i < max q.fixedSize p.fixedSize := by rwa [Nat.max_comm]
              rw [← getElem?_rightpad_fixed hp hlt] at hi
              rw [← getElem?_rightpad_fixed hq hlt'] at hi'
              exact .inl ⟨i, hi, hi'⟩
            · right
              rw [positional?_of_le (by omega), hp] at hi
              rw [positional?_of_le (by omega), hq] at hi'
              exact Prod.ext (Option.some.inj hi).symm (Option.some.inj hi').symm

end Positional

section Map

variable {β : Type} (f : α → β)

theorem fixed_map (p : Params α) : (p.map f).fixed = p.fixed.map f := by
  rw [fixed, fixed, List.map_append]
  rfl

theorem fixedSize_map (p : Params α) : (p.map f).fixedSize = p.fixedSize := by
  rw [← length_fixed, ← length_fixed, fixed_map, List.length_map]

private theorem map_rightpad (xs : List α) (n : Nat) (a : α) :
    (xs.map f).rightpad n (f a) = (xs.rightpad n a).map f := by
  simp [List.rightpad]

theorem namedKeywords_map (p : Params α) :
    (p.map f).namedKeywords = Assoc.mapValues f p.namedKeywords := by
  have hfold : ∀ es m : List (Atom × α),
      (Assoc.mapValues f es).foldl (fun m e => Assoc.insert e.1 e.2 m) (Assoc.mapValues f m) =
        Assoc.mapValues f (es.foldl (fun m e => Assoc.insert e.1 e.2 m) m) := by
    intro es
    induction es with
    | nil => exact fun m => rfl
    | cons e es ih =>
        intro m
        rw [List.foldl_cons, ← ih, Assoc.mapValues_insert]
        rfl
  exact hfold p.requiredKeywords p.optionalKeywords

theorem positionalPairs?_map (p q : Params α) :
    positionalPairs? (p.map f) (q.map f) =
      (positionalPairs? p q).map (List.map (Prod.map f f)) := by
  have hreq : (p.map f).required.length = p.required.length := List.length_map f
  have hp : (p.map f).rest = p.rest.map f := rfl
  have hq : (q.map f).rest = q.rest.map f := rfl
  unfold positionalPairs?
  rw [hp, hq, fixed_map, fixed_map, fixedSize_map, fixedSize_map, hreq]
  cases p.rest with
  | none =>
      cases q.rest with
      | some y => rfl
      | none =>
          dsimp only [Option.map_none]
          split
          · rw [Option.map_some, List.zip_map]
          · rfl
  | some x =>
      cases q.rest with
      | none => simp only [Option.map_some, Option.map_none, map_rightpad, List.zip_map]
      | some y =>
          simp only [Option.map_some, map_rightpad, List.zip_map, List.map_append]
          rfl

private theorem mapM_map_eq_map_mapM {β γ δ ε : Type} {a : β → γ} {b : δ → ε} {g : γ → Option ε}
    {h : β → Option δ} (hgh : ∀ x, g (a x) = (h x).map b) (xs : List β) :
    (xs.map a).mapM g = (xs.mapM h).map (List.map b) := by
  induction xs with
  | nil => rfl
  | cons x xs ih =>
      rw [List.map_cons, List.mapM_cons, List.mapM_cons, ih, hgh]
      cases h x with
      | none => rfl
      | some y => cases xs.mapM h <;> rfl

theorem keywordPairs?_map (p q : Params α) :
    keywordPairs? (p.map f) (q.map f) = (keywordPairs? p q).map (List.map (Prod.map f f)) := by
  have hhas : ∀ k, Assoc.has k (q.map f).requiredKeywords = Assoc.has k q.requiredKeywords := by
    intro k
    rw [Assoc.has, Assoc.has, map, Assoc.get?_mapValues, Option.isSome_map]
  have hall : ((p.map f).requiredKeywords.all fun e => Assoc.has e.1 (q.map f).requiredKeywords) =
      p.requiredKeywords.all fun e => Assoc.has e.1 q.requiredKeywords := by
    simp only [hhas]
    exact List.all_map
  have hp : (p.map f).restKeywords = p.restKeywords.map f := rfl
  have hq : (q.map f).restKeywords = q.restKeywords.map f := rfl
  have hnamed : ∀ e : Atom × α,
      ((Assoc.get? e.1 (Assoc.mapValues f p.namedKeywords)).or (p.restKeywords.map f)).map
          (fun x => (x, f e.2)) =
        (((Assoc.get? e.1 p.namedKeywords).or p.restKeywords).map fun x => (x, e.2)).map
          (Prod.map f f) := by
    intro e
    rw [Assoc.get?_mapValues, ← Option.map_or, Option.map_map, Option.map_map]
    rfl
  unfold keywordPairs?
  rw [hall, hp, hq, namedKeywords_map, namedKeywords_map]
  split
  · have hmap := mapM_map_eq_map_mapM (b := Prod.map f f) (a := fun e : Atom × α => (e.1, f e.2))
      (g := fun e => ((Assoc.get? e.1 (Assoc.mapValues f p.namedKeywords)).or
        (p.restKeywords.map f)).map fun x => (x, e.2)) hnamed q.namedKeywords
    rw [Assoc.mapValues.eq_1 f q.namedKeywords, hmap, Option.map_map, Option.map_map]
    refine Option.map_congr fun named _ => ?_
    simp only [Function.comp_apply, List.map_append]
    cases p.restKeywords <;> cases q.restKeywords <;> rfl
  · rfl

/-- Changed contents are paired as the contents were. -/
theorem pairs?_map (p q : Params α) :
    (p.map f).pairs? (q.map f) = (p.pairs? q).map (List.map (Prod.map f f)) := by
  rw [pairs?, pairs?, positionalPairs?_map, keywordPairs?_map]
  cases positionalPairs? p q with
  | none => rfl
  | some positional => cases keywordPairs? p q <;> simp

end Map

end Params

end Subtyping
