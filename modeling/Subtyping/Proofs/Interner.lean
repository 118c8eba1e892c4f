import Mathlib.Algebra.Group.Nat.Defs
import Mathlib.Data.List.Dedup
import Mathlib.Data.List.Perm.Subperm
import Subtyping.Interner

/-!
# Names and atoms one to one

The two tables of an interner say the same of every name (`Agree`), whatever is interned. As long as
there are no more names than atoms, this makes them inverse to each other: whatever calls are made,
a name stands for one atom and an atom for one name, and later calls change neither
(`isBijective_afterAll`).
-/

namespace Subtyping.Interner

variable {i j k : Interner} {name : String}

/-! ## What interning keeps -/

/-- The two tables say the same: each name stands in one place and has the atom of this place. -/
structure Agree (i : Interner) : Prop where
  nodup : i.names.Nodup
  atom?_iff : ∀ name a, i.atom? name = some a ↔
    ∃ n, i.names[n]? = some name ∧ Atom.ofPosition n = a

theorem agree_empty : empty.Agree where
  nodup := List.nodup_nil
  atom?_iff name a := by simp [empty, atom?]

theorem agree_new : new.Agree where
  nodup := List.nodup_singleton ""
  atom?_iff name a := by
    constructor
    · intro h
      obtain ⟨rfl, rfl⟩ : name = "" ∧ Atom.none = a := by
        simpa [new, Interner.atom?, Assoc.get?] using h
      exact ⟨0, rfl, rfl⟩
    · rintro ⟨n, hn, rfl⟩
      obtain ⟨rfl, rfl⟩ : n = 0 ∧ "" = name := by
        simpa [new, List.getElem?_singleton] using hn
      rfl

theorem Agree.atom?_eq_none_iff (h : i.Agree) (name : String) :
    i.atom? name = none ↔ name ∉ i.names := by
  constructor
  · intro hnone hmem
    obtain ⟨n, hn⟩ := List.mem_iff_getElem?.mp hmem
    rw [(h.atom?_iff name _).mpr ⟨n, hn, rfl⟩] at hnone
    cases hnone
  · intro hmem
    apply Option.eq_none_iff_forall_ne_some.mpr
    intro a ha
    obtain ⟨n, hn, _⟩ := (h.atom?_iff name a).mp ha
    exact hmem (List.mem_of_getElem? hn)

theorem getElem?_concat_eq_some_iff {α : Type} (xs : List α) (x y : α) (n : Nat) :
    (xs ++ [x])[n]? = some y ↔ xs[n]? = some y ∨ n = xs.length ∧ y = x := by
  by_cases hn : n < xs.length
  · have hne : n ≠ xs.length := Nat.ne_of_lt hn
    simp [List.getElem?_append_left hn, hne]
  · have hnone : xs[n]? = none := List.getElem?_eq_none_iff.mpr (by omega)
    rw [List.getElem?_append_right (by omega), hnone, List.getElem?_singleton]
    by_cases he : n = xs.length
    · simp [he, eq_comm]
    · have hpos : n - xs.length ≠ 0 := by omega
      simp [he, hpos]

theorem Agree.intern (h : i.Agree) (name : String) : (i.intern name).2.Agree := by
  cases hname : i.atom? name with
  | some a =>
      rw [intern_of_atom? hname]
      exact h
  | none =>
      have hnew : name ∉ i.names := (h.atom?_eq_none_iff name).mp hname
      have hnames : (i.intern name).2.names = i.names ++ [name] := by
        rw [names_intern, if_pos hname]
      constructor
      · rw [hnames, List.nodup_append]
        refine ⟨h.nodup, List.nodup_singleton name, ?_⟩
        rintro old hold _ hmem rfl
        exact hnew (List.mem_singleton.mp hmem ▸ hold)
      · intro other a
        rw [atom?_intern, intern_fst_of_atom?_eq_none hname, hnames]
        simp only [getElem?_concat_eq_some_iff, or_and_right, exists_or]
        by_cases ho : other = name
        · have hold : ¬∃ n, i.names[n]? = some other ∧ Atom.ofPosition n = a :=
            fun ⟨n, hn, _⟩ => hnew (ho ▸ List.mem_of_getElem? hn)
          rw [if_pos ho, or_iff_right hold]
          simp [ho, size]
        · rw [if_neg ho, h.atom?_iff]
          simp [ho]

/-- What an interner answers about a name or an atom, another one answers as well. -/
structure Extends (i j : Interner) : Prop where
  atom? : ∀ name a, i.atom? name = some a → j.atom? name = some a
  name? : ∀ a name, i.name? a = some name → j.name? a = some name

theorem Extends.refl (i : Interner) : i.Extends i where
  atom? _ _ h := h
  name? _ _ h := h

theorem Extends.trans (hij : i.Extends j) (hjk : j.Extends k) : i.Extends k where
  atom? name a h := hjk.atom? name a (hij.atom? name a h)
  name? a name h := hjk.name? a name (hij.name? a name h)

theorem extends_intern (i : Interner) (name : String) : i.Extends (i.intern name).2 where
  atom? other a h := by
    rw [atom?_intern]
    by_cases ho : other = name
    · rw [if_pos ho, intern_of_atom? (ho ▸ h)]
    · rw [if_neg ho, h]
  name? a other h := by
    have hlt : a.position < i.names.length := (List.getElem?_eq_some_iff.mp h).1
    rw [name?, names_intern]
    split
    · rw [List.getElem?_append_left hlt]
      exact h
    · exact h

theorem size_intern (i : Interner) (name : String) :
    (i.intern name).2.size = if i.atom? name = none then i.size + 1 else i.size := by
  rw [size, names_intern]
  split <;> simp [size]

/-! ## What a run of calls keeps -/

theorem Agree.internAll (h : i.Agree) (names : List String) : (i.internAll names).Agree := by
  induction names generalizing i with
  | nil => exact h
  | cons name names ih => exact ih (h.intern name)

theorem extends_internAll (i : Interner) (names : List String) : i.Extends (i.internAll names) := by
  induction names generalizing i with
  | nil => exact .refl i
  | cons name names ih => exact (extends_intern i name).trans (ih _)

theorem mem_names_of_mem_internAll {names : List String} {name : String}
    (h : name ∈ (i.internAll names).names) : name ∈ i.names ∨ name ∈ names := by
  induction names generalizing i with
  | nil => exact .inl h
  | cons first names ih =>
      rcases ih h with h | h
      · rw [names_intern] at h
        split at h
        · rw [List.mem_append, List.mem_singleton] at h
          refine h.imp_right fun he => ?_
          rw [he]
          exact List.mem_cons_self
        · exact .inl h
      · exact .inr (List.mem_cons_of_mem first h)

theorem Agree.size_internAll_le (h : i.Agree) (names : List String) :
    (i.internAll names).size ≤ i.size + names.dedup.length := by
  -- each name was there or is one of the given ones
  have hsub : (i.internAll names).names ⊆ i.names ++ names.dedup := by
    intro name hname
    rw [List.mem_append, List.mem_dedup]
    exact mem_names_of_mem_internAll hname
  have hle := (List.subperm_of_subset (h.internAll names).nodup hsub).length_le
  rwa [List.length_append] at hle

/-- A call on an interner. -/
inductive Call
  | intern (name : String)
  | internCommon
  | atom? (name : String)
  | name (a : Atom)
  | name? (a : Atom)

/-- The names that a call interns. -/
def Call.names : Call → List String
  | .intern name => [name]
  | .internCommon => commonNames
  | .atom? _ | .name _ | .name? _ => []

/-- An interner after a call. Looking something up leaves it as it is. -/
def after (i : Interner) : Call → Interner
  | .intern name => (i.intern name).2
  | .internCommon => i.internCommon
  | .atom? _ | .name _ | .name? _ => i

def afterAll (i : Interner) (calls : List Call) : Interner := calls.foldl after i

theorem after_eq_internAll (i : Interner) (call : Call) : i.after call = i.internAll call.names := by
  cases call <;> rfl

theorem afterAll_eq_internAll (i : Interner) (calls : List Call) :
    i.afterAll calls = i.internAll (calls.flatMap Call.names) := by
  induction calls generalizing i with
  | nil => rfl
  | cons call calls ih =>
      rw [afterAll, List.foldl_cons, ← afterAll, ih, after_eq_internAll, List.flatMap_cons,
        internAll, internAll, internAll, List.foldl_append]

theorem afterAll_append (i : Interner) (earlier later : List Call) :
    i.afterAll (earlier ++ later) = (i.afterAll earlier).afterAll later :=
  List.foldl_append

theorem extends_afterAll (i : Interner) (calls : List Call) : i.Extends (i.afterAll calls) := by
  rw [afterAll_eq_internAll]
  exact extends_internAll i _

/-! ## One to one -/

/-- Names and atoms stand for each other one to one, and no atom is left out. -/
structure IsBijective (i : Interner) : Prop where
  nodup : i.names.Nodup
  atom?_iff : ∀ name a, i.atom? name = some a ↔ i.name? a = some name
  position : ∀ n, (∃ name a, i.atom? name = some a ∧ a.position = n) ↔ n < i.size

theorem Agree.isBijective (h : i.Agree) (hsize : i.size ≤ UInt32.size) : i.IsBijective := by
  have hiff : ∀ name a, i.atom? name = some a ↔ i.name? a = some name := by
    intro name a
    rw [h.atom?_iff, name?]
    constructor
    · rintro ⟨n, hn, rfl⟩
      have hlt : n < i.size := (List.getElem?_eq_some_iff.mp hn).1
      rw [Atom.position_ofPosition (Nat.lt_of_lt_of_le hlt hsize)]
      exact hn
    · intro ha
      refine ⟨a.position, ha, Atom.position_inj.mp ?_⟩
      exact Atom.position_ofPosition a.index.toNat_lt
  refine ⟨h.nodup, hiff, fun n => ⟨?_, fun hn => ?_⟩⟩
  · rintro ⟨name, a, ha, rfl⟩
    exact (List.getElem?_eq_some_iff.mp ((hiff name a).mp ha)).1
  · have hposition := Atom.position_ofPosition (Nat.lt_of_lt_of_le hn hsize)
    refine ⟨i.names[n], Atom.ofPosition n, ?_, hposition⟩
    rw [hiff, name?, hposition]
    exact List.getElem?_eq_getElem hn

theorem IsBijective.eq_iff (h : i.IsBijective) {name other : String} {a b : Atom}
    (ha : i.atom? name = some a) (hb : i.atom? other = some b) : a = b ↔ name = other := by
  constructor
  · rintro rfl
    rw [h.atom?_iff] at ha hb
    exact Option.some.inj (ha.symm.trans hb)
  · rintro rfl
    exact Option.some.inj (ha.symm.trans hb)

/-- Whether one of the calls is answered with an atom for a name. -/
def Answers (i : Interner) (calls : List Call) (name : String) (a : Atom) : Prop :=
  ∃ earlier later, calls = earlier ++ .intern name :: later ∧
    ((i.afterAll earlier).intern name).1 = a

theorem Answers.atom? {calls : List Call} {a : Atom} (h : i.Answers calls name a) :
    (i.afterAll calls).atom? name = some a := by
  obtain ⟨earlier, later, rfl, rfl⟩ := h
  have hafter : i.afterAll (earlier ++ .intern name :: later) =
      ((i.afterAll earlier).intern name).2.afterAll later := afterAll_append i earlier _
  rw [hafter]
  -- what is interned later takes no atom away
  apply (extends_afterAll _ later).atom?
  rw [atom?_intern, if_pos rfl]

/-- Whatever calls are made on an interner, as long as they intern fewer names than there are atoms:
names and atoms stand for each other one to one, the next call adds a name exactly if it is new,
what was answered before about a name or an atom is still answered, and two names were given the same
atom only if they are the same. The atom for no name is that of the empty name, if that was there from
the start. -/
theorem isBijective_afterAll {start : Interner} (hstart : start = new ∨ start = empty)
    {calls : List Call} (hfew : (calls.flatMap Call.names).dedup.length < 2 ^ 32) :
    (start.afterAll calls).IsBijective ∧
      (∀ name, ((start.afterAll calls).intern name).2.size =
        if (start.afterAll calls).atom? name = none then (start.afterAll calls).size + 1
        else (start.afterAll calls).size) ∧
      (∀ earlier later, calls = earlier ++ later →
        (start.afterAll earlier).Extends (start.afterAll calls)) ∧
      (∀ name a other b, start.Answers calls name a → start.Answers calls other b →
        (a = b ↔ name = other)) ∧
      (start = new → ∀ a name, (start.afterAll calls).name? a = some name →
        (a = Atom.none ↔ name = "")) := by
  have hagree : start.Agree := by
    rcases hstart with rfl | rfl
    · exact agree_new
    · exact agree_empty
  have hone : start.size ≤ 1 := by
    rcases hstart with rfl | rfl
    · exact Nat.le_refl 1
    · exact Nat.zero_le 1
  have hsize : (start.afterAll calls).size ≤ UInt32.size := by
    have hle := hagree.size_internAll_le (calls.flatMap Call.names)
    rw [← afterAll_eq_internAll] at hle
    have hatoms : UInt32.size = 2 ^ 32 := rfl
    omega
  have hafter : (start.afterAll calls).Agree := by
    rw [afterAll_eq_internAll]
    exact hagree.internAll _
  have hbijective := hafter.isBijective hsize
  refine ⟨hbijective, size_intern _, ?_, ?_, ?_⟩
  · rintro earlier later rfl
    rw [afterAll_append]
    exact extends_afterAll _ later
  · intro name a other b ha hb
    exact hbijective.eq_iff ha.atom? hb.atom?
  · rintro rfl a name ha
    have hname := (hbijective.atom?_iff name a).mpr ha
    have hempty := (extends_afterAll new calls).atom? "" Atom.none rfl
    exact hbijective.eq_iff hname hempty

/-- A name that the common ones repeat, the empty one and a new one. -/
theorem isBijective_afterAll_common :
    let calls : List Call :=
      [.intern "each", .internCommon, .name? ⟨1⟩, .intern "", .intern "speak"]
    (calls.flatMap Call.names).dedup.length < 2 ^ 32 ∧ (new.afterAll calls).IsBijective ∧
      ((new.afterAll calls).intern "map").2.size = 47 ∧
      (new.afterAll [.intern "each"]).Extends (new.afterAll calls) ∧
      (new.Answers calls "each" ⟨1⟩ ∧ new.Answers calls "speak" ⟨46⟩ ∧
        ((⟨1⟩ : Atom) = ⟨46⟩ ↔ "each" = "speak")) ∧
      (new.afterAll calls).name? ⟨1⟩ = some "each" ∧ ((⟨1⟩ : Atom) = Atom.none ↔ "each" = "") := by
  intro calls
  have hfew : (calls.flatMap Call.names).dedup.length < 2 ^ 32 := by decide +kernel
  have heach : new.Answers calls "each" ⟨1⟩ := ⟨[], _, rfl, by decide +kernel⟩
  have hspeak : new.Answers calls "speak" ⟨46⟩ :=
    ⟨[.intern "each", .internCommon, .name? ⟨1⟩, .intern ""], [], rfl, by decide +kernel⟩
  have hname : (new.afterAll calls).name? ⟨1⟩ = some "each" := by decide +kernel
  obtain ⟨hbijective, hsize, hextends, hanswers, hnone⟩ := isBijective_afterAll (.inl rfl) hfew
  refine ⟨hfew, hbijective, ?_, hextends [.intern "each"] _ rfl,
    ⟨heach, hspeak, hanswers _ _ _ _ heach hspeak⟩, hname, hnone rfl _ _ hname⟩
  rw [hsize]
  decide +kernel

end Subtyping.Interner
