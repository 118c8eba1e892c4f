import Subtyping.Proofs.Grouping
import Subtyping.Proofs.Params.Aligned

/-!
# Laws of merging

A list in which no keyword is both required and optional is known by its shape and by what it passes
each argument to (`Agrees.eq`). So if contents are merged in a way that does not depend on order,
grouping and repetition, lists are as well: both merges of lists are semilattices
(`semilatticeOn_unionWith`, `semilatticeOn_bothWith?`).
-/

namespace Subtyping

namespace Params

variable {α : Type}

/-! ## Lists by what they do -/

/-- Whether the keywords of a list stand in order and none of them is both required and optional. -/
structure IsProper (p : Params α) : Prop where
  sorted : p.IsSorted
  disjoint : ∀ k ∈ Assoc.keys p.requiredKeywords, k ∉ Assoc.keys p.optionalKeywords

theorem get?_requiredKeywords (p : Params α) (k : Atom) :
    Assoc.get? k p.requiredKeywords =
      if k ∈ Assoc.keys p.requiredKeywords then p.keyword? k else none := by
  by_cases hk : k ∈ Assoc.keys p.requiredKeywords
  · obtain ⟨x, hx⟩ := (Assoc.mem_keys_iff _ k).mp hk
    rw [if_pos hk, hx, keyword?_of_named? (named?_of_required hx)]
  · rw [if_neg hk, (Assoc.get?_eq_none_iff _ k).mpr hk]

theorem IsProper.get?_optionalKeywords {p : Params α} (h : p.IsProper) (k : Atom) :
    Assoc.get? k p.optionalKeywords =
      if k ∈ Assoc.keys p.requiredKeywords ∨ p.named? k = none then none else p.keyword? k := by
  by_cases hk : k ∈ Assoc.keys p.requiredKeywords
  · rw [if_pos (.inl hk), (Assoc.get?_eq_none_iff _ k).mpr (h.disjoint k hk)]
  · have hnamed : p.named? k = Assoc.get? k p.optionalKeywords := by
      rw [named?, (Assoc.get?_eq_none_iff _ k).mpr hk, Option.none_or]
    cases hx : Assoc.get? k p.optionalKeywords with
    | none => rw [if_pos (.inr (hnamed.trans hx))]
    | some x =>
        have hsome : p.named? k = some x := hnamed.trans hx
        rw [if_neg (by simp [hk, hsome]), keyword?_of_named? hsome]

/-- Whether two lists have the same shape and pass each argument to the same content. -/
structure Agrees (p q : Params α) : Prop where
  count : p.required.length = q.required.length
  /-- Without a rest slot, the number of fixed slots follows from which arguments are taken. -/
  size : p.rest ≠ none → q.rest ≠ none → p.fixedSize = q.fixedSize
  required : ∀ k, k ∈ Assoc.keys p.requiredKeywords ↔ k ∈ Assoc.keys q.requiredKeywords
  named : ∀ k, p.named? k = none ↔ q.named? k = none
  taker : ∀ a, p.taker? a = q.taker? a
  restKeywords : p.restKeywords = q.restKeywords

namespace Agrees

variable {p q : Params α} (h : p.Agrees q)
include h

theorem rest_eq : p.rest = q.rest := by
  have hlast := h.taker (.positional (max p.fixedSize q.fixedSize))
  rwa [taker?, taker?, positional?_of_le (Nat.le_max_left ..),
    positional?_of_le (Nat.le_max_right ..)] at hlast

theorem fixedSize_eq : p.fixedSize = q.fixedSize := by
  by_cases hrest : p.rest = none
  · have hle : ∀ r s : Params α, (∀ i, r.positional? i = s.positional? i) → r.rest = none →
        s.fixedSize ≤ r.fixedSize := by
      intro r s hrs hr
      have hnone : r.positional? r.fixedSize = none :=
        (positional?_eq_none_iff r _).mpr ⟨Nat.le_refl _, hr⟩
      exact ((positional?_eq_none_iff s _).mp ((hrs _).symm.trans hnone)).1
    have htaker : ∀ i, p.positional? i = q.positional? i := fun i => h.taker (.positional i)
    exact Nat.le_antisymm (hle q p (fun i => (htaker i).symm) (h.rest_eq ▸ hrest))
      (hle p q htaker hrest)
  · exact h.size hrest (h.rest_eq ▸ hrest)

theorem fixed_eq : p.fixed = q.fixed := by
  apply List.ext_getElem?
  intro i
  by_cases hi : i < p.fixedSize
  · have htaker := h.taker (.positional i)
    have hp : i < p.fixed.length := by rwa [length_fixed]
    have hq : i < q.fixed.length := by rwa [length_fixed, ← h.fixedSize_eq]
    rw [taker?, taker?, positional?, positional?, List.getElem?_eq_getElem hp,
      List.getElem?_eq_getElem hq, Option.some_or, Option.some_or] at htaker
    rw [List.getElem?_eq_getElem hp, List.getElem?_eq_getElem hq, htaker]
  · have hp : p.fixed.length ≤ i := by rw [length_fixed]; omega
    have hq : q.fixed.length ≤ i := by rw [length_fixed, ← h.fixedSize_eq]; omega
    rw [List.getElem?_eq_none hp, List.getElem?_eq_none hq]

theorem keyword?_eq (k : Atom) : p.keyword? k = q.keyword? k := h.taker (.keyword k)

/-- Lists that agree are equal. -/
theorem eq (hp : p.IsProper) (hq : q.IsProper) : p = q := by
  obtain ⟨hrequired, hoptional⟩ := List.append_inj h.fixed_eq h.count
  have hrequiredKeywords : p.requiredKeywords = q.requiredKeywords := by
    apply Assoc.eq_of_get?_eq hp.sorted.1 hq.sorted.1
    intro k
    rw [get?_requiredKeywords, get?_requiredKeywords, h.keyword?_eq]
    simp only [h.required]
  have hoptionalKeywords : p.optionalKeywords = q.optionalKeywords := by
    apply Assoc.eq_of_get?_eq hp.sorted.2 hq.sorted.2
    intro k
    rw [hp.get?_optionalKeywords, hq.get?_optionalKeywords, h.keyword?_eq]
    simp only [h.required, h.named]
  rcases p with ⟨r, o, s, rk, ok, sk⟩
  rcases q with ⟨r', o', s', rk', ok', sk'⟩
  have hrest := h.rest_eq
  have hrestKeywords := h.restKeywords
  simp only at hrequired hoptional hrequiredKeywords hoptionalKeywords hrest hrestKeywords
  rw [hrequired, hoptional, hrest, hrequiredKeywords, hoptionalKeywords, hrestKeywords]

end Agrees

/-! ## The merge for calls that either list takes -/

section Union

variable (merge : α → α → α) (p q r : Params α)

theorem restKeywords_unionWith :
    (unionWith merge p q).restKeywords = Option.merge merge p.restKeywords q.restKeywords := rfl

theorem fixedSize_unionWith :
    (unionWith merge p q).fixedSize = max p.fixedSize q.fixedSize := by
  apply (laid_unionSlots merge p q).fixedSize_eq
  intro i hi hnone
  rw [Option.merge_eq_none_iff, positional?_eq_none_iff, positional?_eq_none_iff] at hnone
  omega

theorem named?_unionWith_eq_none_iff (k : Atom) :
    (unionWith merge p q).named? k = none ↔ p.named? k = none ∧ q.named? k = none := by
  have hrequired : (unionWith merge p q).requiredKeywords = bothRequired merge p q := rfl
  have hoffered : ∀ r s : Params α,
      Assoc.get? k (offered merge r s) = none ↔ r.named? k = none := by
    intro r s
    rw [get?_offered]
    cases r.named? k <;> cases s.keyword? k <;> simp
  rw [named?, get?_optional_unionWith, hrequired, Assoc.has]
  cases hboth : Assoc.get? k (bothRequired merge p q) with
  | some z =>
      rw [get?_bothRequired, Option.map₂_eq_some_iff] at hboth
      obtain ⟨x, y, hx, hy, _⟩ := hboth
      simp [named?_of_required hx]
  | none => simp [Option.or_eq_none_iff, hoffered]

variable {p q r}

theorem isProper_unionWith (hp : p.IsProper) : (unionWith merge p q).IsProper where
  sorted := isSorted_unionWith merge q hp.sorted
  disjoint k hk := by
    obtain ⟨x, hx⟩ := (Assoc.mem_keys_iff _ k).mp hk
    have hhas : Assoc.has k (bothRequired merge p q) = true := Option.isSome_iff_exists.mpr ⟨x, hx⟩
    rw [← Assoc.get?_eq_none_iff, get?_optional_unionWith, if_pos hhas]

variable [Std.Commutative merge]

theorem taker?_unionWith_eq (a : Argument) :
    (unionWith merge p q).taker? a = Option.merge merge (p.taker? a) (q.taker? a) := by
  rcases taker?_unionWith merge p q a with h | h
  · exact h
  · exact h.trans (Std.Commutative.comm _ _)

theorem agrees_unionWith_comm : (unionWith merge p q).Agrees (unionWith merge q p) where
  count := by rw [length_required_unionWith, length_required_unionWith, Nat.min_comm]
  size _ _ := by rw [fixedSize_unionWith, fixedSize_unionWith, Nat.max_comm]
  required k := by rw [mem_keys_required_unionWith, mem_keys_required_unionWith, and_comm]
  named k := by rw [named?_unionWith_eq_none_iff, named?_unionWith_eq_none_iff, and_comm]
  taker a := by
    rw [taker?_unionWith_eq, taker?_unionWith_eq]
    exact Std.Commutative.comm (p.taker? a) (q.taker? a)
  restKeywords := by
    rw [restKeywords_unionWith, restKeywords_unionWith]
    exact Std.Commutative.comm p.restKeywords q.restKeywords

theorem agrees_unionWith_assoc [Std.Associative merge] :
    (unionWith merge (unionWith merge p q) r).Agrees
      (unionWith merge p (unionWith merge q r)) where
  count := by simp only [length_required_unionWith, Nat.min_assoc]
  size _ _ := by simp only [fixedSize_unionWith, Nat.max_assoc]
  required k := by simp only [mem_keys_required_unionWith, and_assoc]
  named k := by simp only [named?_unionWith_eq_none_iff, and_assoc]
  taker a := by
    simp only [taker?_unionWith_eq]
    exact Std.Associative.assoc (p.taker? a) (q.taker? a) (r.taker? a)
  restKeywords := by
    simp only [restKeywords_unionWith]
    exact Std.Associative.assoc p.restKeywords q.restKeywords r.restKeywords

theorem agrees_unionWith_self [Std.IdempotentOp merge] : (unionWith merge p p).Agrees p where
  count := by rw [length_required_unionWith, Nat.min_self]
  size _ _ := by rw [fixedSize_unionWith, Nat.max_self]
  required k := by rw [mem_keys_required_unionWith, and_self]
  named k := by rw [named?_unionWith_eq_none_iff, and_self]
  taker a := by
    rw [taker?_unionWith_eq]
    exact Std.IdempotentOp.idempotent (p.taker? a)
  restKeywords := by
    rw [restKeywords_unionWith]
    exact Std.IdempotentOp.idempotent p.restKeywords

theorem semilatticeOn_unionWith [Std.Associative merge] [Std.IdempotentOp merge] :
    SemilatticeOn IsProper (unionWith merge) where
  closed hp _ := isProper_unionWith merge hp
  comm hp hq := (agrees_unionWith_comm merge).eq (isProper_unionWith merge hp)
    (isProper_unionWith merge hq)
  assoc hp _ _ := (agrees_unionWith_assoc merge).eq
    (isProper_unionWith merge (isProper_unionWith merge hp)) (isProper_unionWith merge hp)
  self hp := (agrees_unionWith_self merge).eq (isProper_unionWith merge hp) hp

end Union

/-! ## The merge for calls that both lists take -/

section Inter

variable (merge : α → α → α) (p q r : Params α)

theorem rest_interWith : (interWith merge p q).rest = Option.map₂ merge p.rest q.rest := by
  have hrest := (laid_interSlots merge p q).rest_eq
  rwa [positional?_of_le (Nat.le_max_left ..), positional?_of_le (Nat.le_max_right ..)] at hrest

theorem restKeywords_interWith :
    (interWith merge p q).restKeywords = Option.map₂ merge p.restKeywords q.restKeywords := by
  simp only [interWith]
  cases p.restKeywords <;> cases q.restKeywords <;> rfl

theorem fixedSize_interWith (hp : p.rest ≠ none) (hq : q.rest ≠ none) :
    (interWith merge p q).fixedSize = max p.fixedSize q.fixedSize := by
  apply (laid_interSlots merge p q).fixedSize_eq
  intro i _ hnone
  rw [Option.map₂_eq_none_iff, positional?_eq_none_iff, positional?_eq_none_iff] at hnone
  exact hnone.elim (fun h => hp h.2) fun h => hq h.2

theorem named?_interWith_eq_none_iff (k : Atom) :
    (interWith merge p q).named? k = none ↔
      (p.named? k = none ∧ q.named? k = none) ∨ p.keyword? k = none ∨ q.keyword? k = none := by
  have hnamed : (interWith merge p q).named? k = none ↔
      Assoc.get? k (interWith merge p q).requiredKeywords = none ∧
        Assoc.get? k (spared merge p q) = none ∧ Assoc.get? k (spared merge q p) = none := by
    rw [named?, Option.or_eq_none_iff, get?_optional_interWith, Assoc.has]
    cases Assoc.get? k (interWith merge p q).requiredKeywords <;> simp
  rw [hnamed, get?_required_interWith, get?_spared, get?_spared]
  simp only [named?, keyword?, Option.or_eq_none_iff, Option.map₂_eq_none_iff]
  grind

variable {p q r}

theorem isProper_interWith : (interWith merge p q).IsProper where
  sorted := ⟨Assoc.isSorted_ofFirsts _, Assoc.isSorted_ofFirsts _⟩
  disjoint k hk := by
    have hhas : Assoc.has k (interWith merge p q).requiredKeywords = true :=
      Option.isSome_iff_exists.mpr ((Assoc.mem_keys_iff _ k).mp hk)
    rw [← Assoc.get?_eq_none_iff, get?_optional_interWith, if_pos hhas]

theorem Meets.refl (p : Params α) : p.Meets p where
  positional i hi := by
    obtain ⟨x, hx⟩ := positional?_eq_some_of_lt hi
    simp [hx]
  keywords k hk := by
    obtain ⟨x, hx⟩ := (Assoc.mem_keys_iff _ k).mp hk
    simp [keyword?_of_named? (named?_of_required hx)]

theorem Meets.count_interWith (hpq : p.Meets q) (hqp : q.Meets p) :
    (interWith merge p q).required.length = max p.required.length q.required.length :=
  length_required_interWith merge p q hpq.positional hqp.positional

theorem Meets.mem_keys_interWith (hpq : p.Meets q) (hqp : q.Meets p) {k : Atom} :
    k ∈ Assoc.keys (interWith merge p q).requiredKeywords ↔
      k ∈ Assoc.keys p.requiredKeywords ∨ k ∈ Assoc.keys q.requiredKeywords :=
  mem_keys_required_interWith merge p q k hpq.keywords hqp.keywords

theorem interWith?_of_accepts {call : CallShape} (hp : p.Accepts call) (hq : q.Accepts call) :
    interWith? merge p q = some (interWith merge p q) ∧ (interWith merge p q).Accepts call := by
  constructor
  · rw [interWith?_eq_some_iff, reconcilable_iff_exists]
    exact ⟨⟨call, hp, hq⟩, rfl⟩
  · rw [accepts_interWith_iff merge (hp.meets hq) (hq.meets hp)]
    exact ⟨hp, hq⟩

theorem bind_interWith?_eq_none (h : ¬∃ call, p.Accepts call ∧ q.Accepts call ∧ r.Accepts call) :
    ((interWith? merge p q).bind fun s => interWith? merge s r) = none := by
  cases hs : interWith? merge p q with
  | none => rfl
  | some s =>
      obtain ⟨hreconcilable, rfl⟩ := (interWith?_eq_some_iff merge p q s).mp hs
      obtain ⟨hpq, hqp⟩ := (reconcilable_iff p q).mp hreconcilable
      rw [Option.bind_some, interWith?_eq_none_iff, ← Bool.not_eq_true, reconcilable_iff_exists]
      rintro ⟨call, hcall, hr⟩
      obtain ⟨hp, hq⟩ := (accepts_interWith_iff merge hpq hqp call).mp hcall
      exact h ⟨call, hp, hq, hr⟩

variable [Std.Commutative merge]

theorem taker?_interWith_eq (a : Argument) :
    (interWith merge p q).taker? a = Option.map₂ merge (p.taker? a) (q.taker? a) := by
  rcases taker?_interWith merge p q a with h | h
  · exact h
  · exact h.trans (Option.map₂_comm Std.Commutative.comm)

theorem agrees_interWith_comm (hpq : p.Meets q) (hqp : q.Meets p) :
    (interWith merge p q).Agrees (interWith merge q p) where
  count := by rw [hpq.count_interWith merge hqp, hqp.count_interWith merge hpq, Nat.max_comm]
  size hrest _ := by
    rw [rest_interWith, Ne, Option.map₂_eq_none_iff, not_or] at hrest
    rw [fixedSize_interWith merge p q hrest.1 hrest.2,
      fixedSize_interWith merge q p hrest.2 hrest.1, Nat.max_comm]
  required k := by
    rw [hpq.mem_keys_interWith merge hqp, hqp.mem_keys_interWith merge hpq, or_comm]
  named k := by
    rw [named?_interWith_eq_none_iff, named?_interWith_eq_none_iff]
    exact or_congr and_comm or_comm
  taker a := by
    rw [taker?_interWith_eq, taker?_interWith_eq]
    exact Option.map₂_comm Std.Commutative.comm
  restKeywords := by
    rw [restKeywords_interWith, restKeywords_interWith]
    exact Option.map₂_comm Std.Commutative.comm

theorem agrees_interWith_assoc [Std.Associative merge] {call : CallShape} (hp : p.Accepts call)
    (hq : q.Accepts call) (hr : r.Accepts call) :
    (interWith merge (interWith merge p q) r).Agrees
      (interWith merge p (interWith merge q r)) := by
  -- every merge takes the call that all three lists take, so any two of them meet
  have hpq := (interWith?_of_accepts merge hp hq).2
  have hqr := (interWith?_of_accepts merge hq hr).2
  have hcount : ∀ {s t : Params α}, s.Accepts call → t.Accepts call →
      (interWith merge s t).required.length = max s.required.length t.required.length :=
    fun hs ht => (hs.meets ht).count_interWith merge (ht.meets hs)
  have hkeys : ∀ {s t : Params α} {k : Atom}, s.Accepts call → t.Accepts call →
      (k ∈ Assoc.keys (interWith merge s t).requiredKeywords ↔
        k ∈ Assoc.keys s.requiredKeywords ∨ k ∈ Assoc.keys t.requiredKeywords) :=
    fun hs ht => (hs.meets ht).mem_keys_interWith merge (ht.meets hs)
  have hkeyword : ∀ (s t : Params α) (k : Atom), (interWith merge s t).keyword? k = none ↔
      s.keyword? k = none ∨ t.keyword? k = none :=
    fun s t k => taker?_interWith_eq_none_iff merge s t (.keyword k)
  constructor
  case count => rw [hcount hpq hr, hcount hp hq, hcount hp hqr, hcount hq hr, Nat.max_assoc]
  case size =>
    -- the slots are counted one merge at a time, so each merge needs its rest slot
    intro hrest _
    simp only [rest_interWith, ne_eq, Option.map₂_eq_none_iff, not_or] at hrest
    obtain ⟨⟨hp', hq'⟩, hr'⟩ := hrest
    have hpq' : (interWith merge p q).rest ≠ none := by simp [rest_interWith, hp', hq']
    have hqr' : (interWith merge q r).rest ≠ none := by simp [rest_interWith, hq', hr']
    rw [fixedSize_interWith merge _ _ hpq' hr', fixedSize_interWith merge _ _ hp' hq',
      fixedSize_interWith merge _ _ hp' hqr', fixedSize_interWith merge _ _ hq' hr', Nat.max_assoc]
  case required =>
    intro k
    rw [hkeys hpq hr, hkeys hp hq, hkeys hp hqr, hkeys hq hr, or_assoc]
  case named =>
    intro k
    -- either grouping names the keywords that one of the lists names and all three take
    simp only [named?_interWith_eq_none_iff, hkeyword]
    grind
  case taker =>
    intro a
    simp only [taker?_interWith_eq]
    exact Option.map₂_assoc Std.Associative.assoc
  case restKeywords =>
    simp only [restKeywords_interWith]
    exact Option.map₂_assoc Std.Associative.assoc

theorem agrees_interWith_self [Std.IdempotentOp merge] (h : p.Meets p) :
    (interWith merge p p).Agrees p := by
  have hself : ∀ x : Option α, Option.map₂ merge x x = x := by
    intro x
    cases x with
    | none => rfl
    | some x => exact congrArg some (Std.IdempotentOp.idempotent x)
  constructor
  case count => rw [h.count_interWith merge h, Nat.max_self]
  case size =>
    intro _ hrest
    rw [fixedSize_interWith merge p p hrest hrest, Nat.max_self]
  case required =>
    intro k
    rw [h.mem_keys_interWith merge h, or_self]
  case named =>
    intro k
    rw [named?_interWith_eq_none_iff, keyword?_eq_named?_or, Option.or_eq_none_iff, and_self,
      or_self, or_iff_left_of_imp And.left]
  case taker =>
    intro a
    rw [taker?_interWith_eq, hself]
  case restKeywords => rw [restKeywords_interWith, hself]

theorem interWith?_comm (p q : Params α) : interWith? merge p q = interWith? merge q p := by
  by_cases h : p.Meets q ∧ q.Meets p
  · have hpq := (reconcilable_iff p q).mpr h
    have hqp := (reconcilable_iff q p).mpr h.symm
    rw [interWith?, interWith?, if_pos hpq, if_pos hqp, (agrees_interWith_comm merge h.1 h.2).eq
      (isProper_interWith merge) (isProper_interWith merge)]
  · have hpq : ¬reconcilable p q = true := fun hpq => h ((reconcilable_iff p q).mp hpq)
    have hqp : ¬reconcilable q p = true := fun hqp => h ((reconcilable_iff q p).mp hqp).symm
    rw [interWith?, interWith?, if_neg hpq, if_neg hqp]

/-- Three lists have a merge if there is a call that all of them take, in either grouping. -/
theorem interWith?_assoc [Std.Associative merge] (p q r : Params α) :
    ((interWith? merge p q).bind fun s => interWith? merge s r) =
      (interWith? merge q r).bind fun s => interWith? merge p s := by
  by_cases h : ∃ call, p.Accepts call ∧ q.Accepts call ∧ r.Accepts call
  · obtain ⟨call, hp, hq, hr⟩ := h
    obtain ⟨hpq, hpqCall⟩ := interWith?_of_accepts merge hp hq
    obtain ⟨hqr, hqrCall⟩ := interWith?_of_accepts merge hq hr
    rw [hpq, hqr, Option.bind_some, Option.bind_some, (interWith?_of_accepts merge hpqCall hr).1,
      (interWith?_of_accepts merge hp hqrCall).1, (agrees_interWith_assoc merge hp hq hr).eq
        (isProper_interWith merge) (isProper_interWith merge)]
  · have hrotated : ¬∃ call, q.Accepts call ∧ r.Accepts call ∧ p.Accepts call :=
      fun ⟨call, hq, hr, hp⟩ => h ⟨call, hp, hq, hr⟩
    rw [bind_interWith?_eq_none merge h]
    simp only [interWith?_comm merge p]
    exact (bind_interWith?_eq_none merge hrotated).symm

theorem interWith?_self [Std.IdempotentOp merge] (hp : p.IsProper) :
    interWith? merge p p = some p := by
  have h := Meets.refl p
  rw [interWith?, if_pos ((reconcilable_iff p p).mpr ⟨h, h⟩), (agrees_interWith_self merge h).eq
    (isProper_interWith merge) hp]

/-- The merge of lists that may have come to nothing before. -/
def bothWith? (x y : Option (Params α)) : Option (Params α) :=
  x.bind fun p => y.bind fun q => interWith? merge p q

theorem semilatticeOn_bothWith? [Std.Associative merge] [Std.IdempotentOp merge] :
    SemilatticeOn (fun x => ∀ p ∈ x, p.IsProper) (bothWith? merge) where
  closed := by
    intro x y _ _ s hs
    obtain ⟨p, _, hs⟩ := Option.bind_eq_some_iff.mp hs
    obtain ⟨q, _, hs⟩ := Option.bind_eq_some_iff.mp hs
    obtain ⟨_, rfl⟩ := (interWith?_eq_some_iff merge p q s).mp hs
    exact isProper_interWith merge
  comm := by
    rintro (_ | p) (_ | q) _ _ <;> try rfl
    exact interWith?_comm merge p q
  assoc := by
    rintro (_ | p) (_ | q) (_ | r) _ _ _ <;> try rfl
    · exact Option.bind_fun_none _
    · exact interWith?_assoc merge p q r
  self := by
    rintro (_ | p) hp
    · rfl
    · exact interWith?_self merge (hp p rfl)

end Inter

end Params

end Subtyping
