import Subtyping.Proofs.Unfolding.Shown
import Subtyping.Unfolding

/-!
# Levels of rules as propositions

`Holds` says of a constraint that so many levels of rules show it. The constraints above it are
assumed on the way down or are not, so that both the plain rules and a check that has nothing but the
path to go by come under one definition. What holds does not depend on the supply nor on assumptions
about variables that the constraint cannot mention (`Later.holds_iff`).
-/

namespace Subtyping

/-- The variables were made before the next ones of the supply. -/
def FreshSupply.Above (s : FreshSupply) (vs : List TypeVar) : Prop := ∀ v ∈ vs, v.id < s.next

instance (s : FreshSupply) (vs : List TypeVar) : Decidable (s.Above vs) :=
  inferInstanceAs (Decidable (∀ v ∈ vs, v.id < s.next))

namespace FreshSupply

theorem Above.of_le {s s' : FreshSupply} (hle : s.next ≤ s'.next) {vs : List TypeVar}
    (h : s.Above vs) : s'.Above vs := by
  intro v hv
  exact Nat.lt_of_lt_of_le (h v hv) hle

theorem Above.append {s : FreshSupply} {vs ws : List TypeVar} (hvs : s.Above vs)
    (hws : s.Above ws) : s.Above (vs ++ ws) := by
  intro v hv
  rcases List.mem_append.mp hv with hv | hv
  · exact hvs v hv
  · exact hws v hv

theorem id_of_mem_drawAll {s : FreshSupply} {vs : List TypeVar} {w : TypeVar}
    (h : w ∈ (s.drawAll vs).1) : s.next ≤ w.id ∧ w.id < (s.drawAll vs).2.next := by
  induction vs generalizing s with
  | nil => exact absurd h List.not_mem_nil
  | cons v vs ih =>
      have hnext := next_drawAll (s.draw v.name).2 vs
      simp only [drawAll] at h ⊢
      rcases List.mem_cons.mp h with rfl | h
      · rw [hnext]
        simp only [draw]
        omega
      · obtain ⟨hge, hlt⟩ := ih h
        simp only [draw] at hge hlt ⊢
        exact ⟨by omega, hlt⟩

theorem next_le_next_drawAll (s : FreshSupply) (vs : List TypeVar) :
    s.next ≤ (s.drawAll vs).2.next := by
  rw [next_drawAll]
  exact Nat.le_add_right _ _

end FreshSupply

theorem vars_of_mem_equalities {vs ws : List TypeVar} {c : Constraint}
    (h : c ∈ equalities vs ws) : ∃ v ∈ vs, ∃ w ∈ ws, c.vars = [v, w] ∨ c.vars = [w, v] := by
  obtain ⟨e, he, hc⟩ := List.mem_flatMap.mp h
  obtain ⟨hv, hw⟩ := List.of_mem_zip (a := e.1) (b := e.2) he
  refine ⟨e.1, hv, e.2, hw, ?_⟩
  rcases List.mem_pair.mp hc with rfl | rfl
  · exact .inl rfl
  · exact .inr rfl

section Levels

/-- The assumptions below a constraint that is opened, where constraints on the path are assumed or
are not. -/
def opened (remember : Bool) (c : Constraint) (assumed : Assumptions) : Assumptions :=
  if remember then c :: assumed else assumed

/-- The decision by so many levels of rules without any memory. -/
def descend (store : Store) (remember : Bool) (levels : Nat) : Decision Unit :=
  fun assumed path c σ =>
    match levels with
    | 0 => (.success, σ)
    | levels + 1 =>
        if c ∈ assumed then (.success, σ)
        else (store.goal c).solve (descend store remember levels) (opened remember c assumed) path σ

/-- Whether so many levels of rules show a constraint. -/
def Holds (store : Store) (remember : Bool) (levels : Nat) (s : FreshSupply)
    (assumed : Assumptions) (c : Constraint) : Prop :=
  match levels with
  | 0 => True
  | levels + 1 =>
      c ∈ assumed ∨
        (store.goal c).Shown (Holds store remember levels) s (opened remember c assumed)

theorem unfold_eq_descend (store : Store) (levels : Nat) :
    unfold store levels = descend store false levels := by
  induction levels with
  | zero => rfl
  | succ n ih =>
      funext assumed path c σ
      rw [unfold_succ, ih]
      rfl

variable {store : Store} {remember : Bool} {n : Nat} {c : Constraint}

theorem opened_mono {A B : Assumptions} (h : A ⊆ B) : opened remember c A ⊆ opened remember c B := by
  cases remember with
  | false => exact h
  | true => exact List.cons_subset_cons c h

theorem Holds.mono {s : FreshSupply} {A B : Assumptions} {m : Nat} (hmn : m ≤ n) (hAB : A ⊆ B)
    (h : Holds store remember n s A c) : Holds store remember m s B c := by
  induction n generalizing m s A B c with
  | zero =>
      obtain rfl : m = 0 := Nat.le_zero.mp hmn
      trivial
  | succ n ih =>
      cases m with
      | zero => trivial
      | succ m =>
          refine h.imp (fun hc => hAB hc) fun hgoal => ?_
          refine hgoal.mono ?_ (opened_mono hAB)
          intro s A B d hsub hd
          exact ih (Nat.le_of_succ_le_succ hmn) hsub hd

theorem Goal.Shown.mono_holds {g : Goal} {s : FreshSupply} {A B : Assumptions} {m : Nat} (hmn : m ≤ n)
    (hAB : A ⊆ B) (h : g.Shown (Holds store remember n) s A) :
    g.Shown (Holds store remember m) s B := by
  refine h.mono ?_ hAB
  intro s A B d hsub hd
  exact hd.mono hmn hsub

theorem holds_relabel {ρ : TypeVar → TypeVar} (hstore : ∀ v ∈ store.vars, ρ v = v)
    {s s' : FreshSupply} {A A' : Assumptions} (hs : Moves ρ s s') (hA : Agrees ρ A A') :
    Holds store remember n s A c ↔ Holds store remember n s' A' (c.relabel ρ) := by
  induction n generalizing s s' A A' c with
  | zero => exact Iff.rfl
  | succ n ih =>
      have hopened : Agrees ρ (opened remember c A) (opened remember (c.relabel ρ) A') := by
        cases remember with
        | false => exact hA
        | true =>
            intro d
            rw [opened, opened, if_pos rfl, if_pos rfl, List.mem_cons, List.mem_cons, hA d,
              (Constraint.relabel_injective hs.injective).eq_iff]
      have hgoal := store.goal_relabels hs.injective hstore c
      exact or_congr (hA c) (hgoal.shown_iff (fun _ _ _ _ _ hs hA => ih hs hA) hs hopened)

end Levels

/-- At a later time more variables have been made and assumed to be equal, but no assumption came
or went that is about old variables alone. -/
structure Later (s : FreshSupply) (E : Assumptions) (s' : FreshSupply) (E' : Assumptions) : Prop where
  le : s.next ≤ s'.next
  before : ∀ e ∈ E, s.Above e.vars
  after : ∀ e ∈ E', s'.Above e.vars
  agree : ∀ c : Constraint, s.Above c.vars → (c ∈ E ↔ c ∈ E')

/-- New labels for the variables from a number onwards. -/
def TypeVar.shift (start d : Nat) (v : TypeVar) : TypeVar :=
  if v.id < start then v else { v with id := v.id + d }

theorem TypeVar.id_shift (start d : Nat) (v : TypeVar) :
    (v.shift start d).id = if v.id < start then v.id else v.id + d := by
  rw [shift]
  split <;> rfl

theorem TypeVar.name_shift (start d : Nat) (v : TypeVar) : (v.shift start d).name = v.name := by
  rw [shift]
  split <;> rfl

namespace Later

variable {s s' s'' : FreshSupply} {E E' E'' : Assumptions}

theorem refl (h : ∀ e ∈ E, s.Above e.vars) : Later s E s E where
  le := Nat.le_refl _
  before := h
  after := h
  agree _ _ := Iff.rfl

theorem trans (h : Later s E s' E') (h' : Later s' E' s'' E'') : Later s E s'' E'' where
  le := Nat.le_trans h.le h'.le
  before := h.before
  after := h'.after
  agree c hc := (h.agree c hc).trans (h'.agree c (hc.of_le h.le))

theorem of_le (h : ∀ e ∈ E, s.Above e.vars) (hle : s.next ≤ s'.next) : Later s E s' E where
  le := hle
  before := h
  after e he := (h e he).of_le hle
  agree _ _ := Iff.rfl

theorem subset (h : Later s E s' E') : E ⊆ E' := by
  intro e he
  exact (h.agree e (h.before e he)).mp he

theorem moves (h : Later s E s' E') : Moves (TypeVar.shift s.next (s'.next - s.next)) s s' where
  injective v w he := by
    have hid := congrArg TypeVar.id he
    have hname := congrArg TypeVar.name he
    rw [TypeVar.id_shift, TypeVar.id_shift] at hid
    rw [TypeVar.name_shift, TypeVar.name_shift] at hname
    have : v.id = w.id := by
      split at hid <;> split at hid <;> omega
    cases v
    cases w
    exact congrArg₂ TypeVar.mk hname this
  name v := TypeVar.name_shift _ _ v
  next a i := by
    have hle := h.le
    rw [TypeVar.shift, if_neg (by simp)]
    simp only [TypeVar.mk.injEq, true_and]
    omega

theorem shift_of_above {vs : List TypeVar} (hvs : s.Above vs) :
    ∀ v ∈ vs, TypeVar.shift s.next (s'.next - s.next) v = v := by
  intro v hv
  exact if_pos (hvs v hv)

theorem agrees (h : Later s E s' E') : Agrees (TypeVar.shift s.next (s'.next - s.next)) E E' := by
  intro c
  by_cases hc : s.Above c.vars
  · rw [Constraint.relabel_eq_self (shift_of_above hc)]
    exact h.agree c hc
  · -- a constraint with a new variable is assumed neither before nor, with the new label, after
    have hnew : ∃ v ∈ c.vars, s.next ≤ v.id := by
      by_contra hnone
      exact hc fun v hv => Nat.lt_of_not_le fun hge => hnone ⟨v, hv, hge⟩
    obtain ⟨v, hv, hge⟩ := hnew
    constructor
    · intro hE
      exact absurd (h.before c hE v hv) (Nat.not_lt.mpr hge)
    · intro hE
      have hmem : TypeVar.shift s.next (s'.next - s.next) v ∈
          (c.relabel (TypeVar.shift s.next (s'.next - s.next))).vars := by
        rw [Constraint.vars_relabel]
        exact List.mem_map_of_mem hv
      have hlt := h.after _ hE _ hmem
      rw [TypeVar.id_shift, if_neg (Nat.not_lt.mpr hge)] at hlt
      have hle := h.le
      omega

variable {store : Store} {remember : Bool} {n : Nat}

theorem shown_iff (h : Later s E s' E') (hstore : s.Above store.vars) {vs : List TypeVar}
    (hvs : s.Above vs) {g : Goal} (hg : g.Supported vs) :
    g.Shown (Holds store remember n) s E ↔ g.Shown (Holds store remember n) s' E' := by
  -- moving the labels of what is drawn from here on changes no old variable
  have hrelabels := hg _ h.moves.injective (shift_of_above hvs)
  refine hrelabels.shown_iff (fun _ _ _ _ _ hs hA => ?_) h.moves h.agrees
  exact holds_relabel (shift_of_above hstore) hs hA

theorem holds_iff (h : Later s E s' E') (hstore : s.Above store.vars) {c : Constraint}
    (hc : s.Above c.vars) :
    Holds store remember n s E c ↔ Holds store remember n s' E' c := by
  have hlabel : c.relabel (TypeVar.shift s.next (s'.next - s.next)) = c :=
    Constraint.relabel_eq_self (shift_of_above hc)
  rw [holds_relabel (shift_of_above hstore) h.moves h.agrees, hlabel]

end Later

/-- The variables were made from the first supply, which became the second by it. -/
structure Drawn (s : FreshSupply) (vs ws : List TypeVar) (s' : FreshSupply) : Prop where
  le : s.next ≤ s'.next
  new : ∀ v ∈ vs ++ ws, s.next ≤ v.id
  above : s'.Above (vs ++ ws)

theorem drawn_drawAll (s : FreshSupply) (sub sup : List TypeVar) :
    Drawn s (s.drawAll sub).1 ((s.drawAll sub).2.drawAll sup).1
      ((s.drawAll sub).2.drawAll sup).2 := by
  have hsub := s.next_le_next_drawAll sub
  have hsup := (s.drawAll sub).2.next_le_next_drawAll sup
  have hboth : ∀ v ∈ (s.drawAll sub).1 ++ ((s.drawAll sub).2.drawAll sup).1,
      s.next ≤ v.id ∧ v.id < ((s.drawAll sub).2.drawAll sup).2.next := by
    intro v hv
    rcases List.mem_append.mp hv with hv | hv
    · have := FreshSupply.id_of_mem_drawAll hv
      omega
    · have := FreshSupply.id_of_mem_drawAll hv
      omega
  exact ⟨Nat.le_trans hsub hsup, fun v hv => (hboth v hv).1, fun v hv => (hboth v hv).2⟩

namespace Drawn

variable {s s' : FreshSupply} {vs ws us : List TypeVar} {E : Assumptions}

theorem above_append (h : Drawn s vs ws s') (hus : s.Above us) : s'.Above (vs ++ ws ++ us) :=
  h.above.append (hus.of_le h.le)

theorem new_of_mem_equalities (h : Drawn s vs ws s') {e : Constraint} (he : e ∈ equalities vs ws) :
    ∃ v ∈ e.vars, s.next ≤ v.id := by
  obtain ⟨v, hv, w, _, hvars⟩ := vars_of_mem_equalities he
  refine ⟨v, ?_, h.new v (List.mem_append_left ws hv)⟩
  rcases hvars with hvars | hvars <;> simp [hvars]

theorem mem_append_of_mem_equalities {e : Constraint} (he : e ∈ equalities vs ws) {v : TypeVar}
    (hv : v ∈ e.vars) : v ∈ vs ++ ws := by
  obtain ⟨x, hx, y, hy, hvars⟩ := vars_of_mem_equalities he
  have hxy : v = x ∨ v = y := by
    rcases hvars with hvars | hvars
    · rwa [hvars, List.mem_pair] at hv
    · rw [hvars, List.mem_pair] at hv
      exact hv.symm
  rcases hxy with rfl | rfl
  · exact List.mem_append_left ws hx
  · exact List.mem_append_right vs hy

theorem later (h : Drawn s vs ws s') (hE : ∀ e ∈ E, s.Above e.vars) :
    Later s E s' (equalities vs ws ++ E) where
  le := h.le
  before := hE
  after e he := by
    rcases List.mem_append.mp he with he | he
    · exact fun v hv => h.above v (mem_append_of_mem_equalities he hv)
    · exact (hE e he).of_le h.le
  agree c hc := by
    constructor
    · exact fun hcE => List.mem_append_right _ hcE
    · intro hmem
      rcases List.mem_append.mp hmem with heq | hcE
      · obtain ⟨v, hv, hge⟩ := h.new_of_mem_equalities heq
        exact absurd (hc v hv) (Nat.not_lt.mpr hge)
      · exact hcE

end Drawn

end Subtyping
