/-!
# Ordered association lists

A table is a list of keys with their values in ascending order of the keys. The lemmas say what
each operation does to `get?`; none of them needs the order.
-/

namespace Subtyping.Assoc

variable {κ α β : Type}

/-- Every key once, in ascending order. -/
def IsSorted [LT κ] (m : List (κ × α)) : Prop := (m.map Prod.fst).Pairwise (· < ·)

def keys (m : List (κ × α)) : List κ := m.map Prod.fst

def values (m : List (κ × α)) : List α := m.map Prod.snd

def mapValues (f : α → β) (m : List (κ × α)) : List (κ × β) := m.map fun e => (e.1, f e.2)

section Keys

variable [DecidableEq κ]

def get? (k : κ) : List (κ × α) → Option α
  | [] => none
  | (l, x) :: m => if k = l then some x else get? k m

def has (k : κ) (m : List (κ × α)) : Bool := (get? k m).isSome

def erase (k : κ) (m : List (κ × α)) : List (κ × α) := m.filter fun e => e.1 ≠ k

variable [LT κ] [DecidableLT κ]

/-- A table with a value at a key, in place of what was there. -/
def insert (k : κ) (x : α) : List (κ × α) → List (κ × α)
  | [] => [(k, x)]
  | (l, y) :: m =>
      if k = l then (k, x) :: m
      else if k < l then (k, x) :: (l, y) :: m
      else (l, y) :: insert k x m

/-- The table of the given entries, where a key that comes twice keeps its last value. -/
def ofList (es : List (κ × α)) : List (κ × α) := es.foldl (fun m e => insert e.1 e.2 m) []

/-- The table of the given entries, where a key that comes twice keeps its first value. -/
def ofFirsts (es : List (κ × α)) : List (κ × α) := es.foldr (fun e m => insert e.1 e.2 m) []

end Keys

@[simp] theorem keys_mapValues (f : α → β) (m : List (κ × α)) :
    keys (mapValues f m) = keys m := by
  simp [keys, mapValues]

@[simp] theorem values_mapValues (f : α → β) (m : List (κ × α)) :
    values (mapValues f m) = (values m).map f := by
  simp [values, mapValues]

section Lookup

variable [DecidableEq κ]

@[simp] theorem get?_nil (k : κ) : get? k ([] : List (κ × α)) = none := rfl

@[simp] theorem get?_mapValues (f : α → β) (m : List (κ × α)) (k : κ) :
    get? k (mapValues f m) = (get? k m).map f := by
  induction m with
  | nil => rfl
  | cons e m ih =>
      rcases e with ⟨l, x⟩
      by_cases h : k = l
      · simp [mapValues, get?, h]
      · simpa [mapValues, get?, h] using ih

theorem get?_append (m n : List (κ × α)) (k : κ) :
    get? k (m ++ n) = (get? k m).or (get? k n) := by
  induction m with
  | nil => rfl
  | cons e m ih =>
      rcases e with ⟨l, x⟩
      by_cases h : k = l <;> simp [get?, h, ih]

theorem get?_eq_none_iff (m : List (κ × α)) (k : κ) : get? k m = none ↔ k ∉ keys m := by
  induction m with
  | nil => simp [keys]
  | cons e m ih =>
      rcases e with ⟨l, x⟩
      by_cases h : k = l
      · simp [get?, keys, h]
      · simpa [get?, keys, h] using ih

theorem mem_of_get?_eq_some {m : List (κ × α)} {k : κ} {x : α} (h : get? k m = some x) :
    (k, x) ∈ m := by
  induction m with
  | nil => simp at h
  | cons e m ih =>
      rw [get?] at h
      by_cases he : k = e.1
      · rw [if_pos he] at h
        have : e = (k, x) := Prod.ext he.symm (Option.some.inj h)
        rw [this]
        exact List.mem_cons_self
      · rw [if_neg he] at h
        exact List.mem_cons_of_mem e (ih h)

theorem get?_erase (m : List (κ × α)) (k l : κ) :
    get? l (erase k m) = if l = k then none else get? l m := by
  induction m with
  | nil => simp [erase]
  | cons e m ih =>
      rcases e with ⟨j, x⟩
      by_cases hj : j = k
      · subst hj
        by_cases hl : l = j <;> simp_all [erase, get?]
      · by_cases hl : l = j <;> simp_all [erase, get?]

variable [LT κ] [DecidableLT κ]

theorem get?_insert (m : List (κ × α)) (k l : κ) (x : α) :
    get? l (insert k x m) = if l = k then some x else get? l m := by
  induction m with
  | nil => simp [insert, get?]
  | cons e m ih =>
      rcases e with ⟨j, y⟩
      by_cases hkj : k = j
      · subst hkj
        by_cases hl : l = k <;> simp [insert, get?, hl]
      · by_cases hlt : k < j
        · simp [insert, get?, hkj, hlt]
        · by_cases hlj : l = j
          · subst hlj
            simp [insert, get?, hkj, hlt, Ne.symm hkj]
          · simp [insert, get?, hkj, hlt, hlj, ih]

@[simp] theorem get?_ofFirsts (es : List (κ × α)) (k : κ) : get? k (ofFirsts es) = get? k es := by
  induction es with
  | nil => rfl
  | cons e es ih =>
      rcases e with ⟨l, x⟩
      have : ofFirsts ((l, x) :: es) = insert l x (ofFirsts es) := rfl
      simp [this, get?_insert, get?, ih]

theorem get?_foldl_insert (es m : List (κ × α)) (k : κ) :
    get? k (es.foldl (fun m e => insert e.1 e.2 m) m) = (get? k es.reverse).or (get? k m) := by
  induction es generalizing m with
  | nil => rfl
  | cons e es ih =>
      rw [List.foldl_cons, ih, get?_insert, List.reverse_cons, get?_append, Option.or_assoc]
      by_cases h : k = e.1 <;> simp [get?, h]

theorem get?_ofList (es : List (κ × α)) (k : κ) :
    get? k (ofList es) = get? k es.reverse := by
  rw [ofList, get?_foldl_insert, get?_nil, Option.or_none]

end Lookup

end Subtyping.Assoc
