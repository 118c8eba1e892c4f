import Mathlib.Data.Set.Card
import Mathlib.GroupTheory.Perm.Basic
import Subtyping.Proofs.Checker.TooDeep
import Subtyping.Proofs.Goal.Asks
import Subtyping.Proofs.Unfolding.Holds

/-!
# Meeting the ceiling

An open constraint that comes up again is taken to hold, so no more constraints can be open at once
than there are to be reached. Variables that are made on the way tell constraints apart that do not
otherwise differ. Where such constraints never come up below each other, the ceiling is not met if
there is room for one of each kind (`ceilingHits_isSubtype`).
-/

namespace Subtyping

namespace Constraint

/-- Whether constraints differ at most in the variables with numbers from the given one on. -/
def Alike (n : Nat) (c d : Constraint) : Prop :=
  ∃ ρ : Equiv.Perm TypeVar, (∀ v : TypeVar, v.id < n → ρ v = v) ∧ c.relabel ρ = d

theorem relabel_relabel (ρ ρ' : TypeVar → TypeVar) (c : Constraint) :
    (c.relabel ρ).relabel ρ' = c.relabel fun v => ρ' (ρ v) := by
  rw [relabel, relabel, Ty.relabel_relabel, Ty.relabel_relabel]
  rfl

theorem alike_equivalence (n : Nat) : Equivalence (Alike n) where
  refl c := ⟨1, fun _ _ => rfl, relabel_eq_self fun _ _ => rfl⟩
  symm := by
    rintro c d ⟨ρ, hρ, rfl⟩
    refine ⟨ρ.symm, fun v hv => ?_, ?_⟩
    · rw [Equiv.symm_apply_eq, hρ v hv]
    · rw [relabel_relabel]
      exact relabel_eq_self fun v _ => ρ.symm_apply_apply v
  trans := by
    rintro c d e ⟨ρ, hρ, rfl⟩ ⟨ρ', hρ', rfl⟩
    refine ⟨ρ.trans ρ', fun v hv => ?_, ?_⟩
    · rw [Equiv.trans_apply, hρ v hv, hρ' v hv]
    · rw [relabel_relabel]
      rfl

/-- Constraints up to the variables with numbers from the given one on. -/
def alike (n : Nat) : Setoid Constraint := ⟨Alike n, alike_equivalence n⟩

/-- The kind of a constraint: all that differ from it at most in new variables. -/
def kind (n : Nat) (c : Constraint) : Quotient (alike n) := Quotient.mk (alike n) c

theorem kind_eq_iff {n : Nat} {c d : Constraint} : c.kind n = d.kind n ↔ Alike n c d :=
  Quotient.eq

end Constraint

/-- A constraint with the supply that is left when it is asked. -/
abbrev Asked := Constraint × FreshSupply

namespace Store

/-- Whether a constraint asks for another. -/
def Asks (store : Store) (a b : Asked) : Prop := (store.goal a.1).Asks a.2 b.1 b.2

/-- Whether a constraint asks for another in any number of steps. -/
def Reaches (store : Store) : Asked → Asked → Prop := Relation.ReflTransGen store.Asks

/-- The kinds of the constraints that are asked for in any number of steps, the first among them. -/
def kinds (store : Store) (a : Asked) : Set (Quotient (Constraint.alike a.2.next)) :=
  {k | ∃ b, store.Reaches a b ∧ b.1.kind a.2.next = k}

/-- Whether a constraint of a kind that comes up again comes up again as it is. -/
def Recurs (store : Store) (a : Asked) : Prop :=
  ∀ b d, store.Reaches a b → store.Reaches b d → b.1.kind a.2.next = d.1.kind a.2.next → b.1 = d.1

end Store

theorem length_le_ncard {α : Type} {s : Set α} (hs : s.Finite) {l : List α} (hl : l.Nodup)
    (hmem : ∀ x ∈ l, x ∈ s) : l.length ≤ s.ncard := by
  classical
  rw [← List.toFinset_card_of_nodup hl, ← Set.ncard_coe_finset]
  apply Set.ncard_le_ncard _ hs
  intro x hx
  exact hmem x (List.mem_toFinset.mp hx)

section Run

variable {store : Store} {start : Asked}

/-- The open constraints on the way to a constraint that is being asked: they are assumed and all of
different kinds. -/
structure Open (store : Store) (start : Asked) (A above : Assumptions) (b : Asked) : Prop where
  assumed : above ⊆ A
  reached : store.Reaches start b
  through : ∀ c ∈ above, ∃ s, store.Reaches start (c, s) ∧ store.Reaches (c, s) b
  nodup : (above.map (Constraint.kind start.2.next)).Nodup

namespace Open

variable {A B above : Assumptions} {b d : Asked}

theorem notMem_kinds (h : Open store start A above b) (hrecurs : store.Recurs start)
    (hb : b.1 ∉ A) : b.1.kind start.2.next ∉ above.map (Constraint.kind start.2.next) := by
  intro hmem
  obtain ⟨c, hc, hkind⟩ := List.mem_map.mp hmem
  obtain ⟨s, hstart, hreach⟩ := h.through c hc
  have heq : c = b.1 := hrecurs (c, s) b hstart hreach hkind
  rw [← heq] at hb
  exact hb (h.assumed hc)

theorem nodup_cons (h : Open store start A above b) (hrecurs : store.Recurs start)
    (hb : b.1 ∉ A) : ((b.1 :: above).map (Constraint.kind start.2.next)).Nodup := by
  have hnew := h.notMem_kinds hrecurs hb
  exact List.nodup_cons.mpr ⟨hnew, h.nodup⟩

theorem length_lt (h : Open store start A above b) (hrecurs : store.Recurs start) (hb : b.1 ∉ A)
    (hfinite : (store.kinds start).Finite) : above.length < (store.kinds start).ncard := by
  -- the constraint and the open ones are of different kinds, and the start leads to all of them
  have hle := length_le_ncard hfinite (h.nodup_cons hrecurs hb) (by
    intro k hk
    obtain ⟨c, hc, rfl⟩ := List.mem_map.mp hk
    rcases List.mem_cons.mp hc with rfl | hc
    · exact ⟨b, h.reached, rfl⟩
    · obtain ⟨s, hstart, _⟩ := h.through c hc
      exact ⟨(c, s), hstart, rfl⟩)
  rw [List.length_map, List.length_cons] at hle
  omega

theorem nested (h : Open store start A above b) (hrecurs : store.Recurs start) (hb : b.1 ∉ A)
    (hd : store.Asks b d) (hB : b.1 :: A ⊆ B) : Open store start B (b.1 :: above) d where
  assumed := List.Subset.trans (List.cons_subset_cons b.1 h.assumed) hB
  reached := h.reached.tail hd
  through c hc := by
    rcases List.mem_cons.mp hc with rfl | hc
    · exact ⟨b.2, h.reached, .single hd⟩
    · obtain ⟨s, hstart, hreach⟩ := h.through c hc
      exact ⟨s, hstart, hreach.tail hd⟩
  nodup := h.nodup_cons hrecurs hb

end Open

/-- While there is room for a constraint of each kind that is not open, the ceiling is not met. -/
theorem ceilingHits_check (hfinite : (store.kinds start).Finite) (hrecurs : store.Recurs start)
    (room : Nat) (A : Assumptions) (path : Path) (c : Constraint) (σ : Progress Kept) :
    ∀ above, Open store start A above (c, σ.supply) →
      (store.kinds start).ncard ≤ room + above.length →
      (check store room A path c σ).2.kept.ceilingHits = σ.kept.ceilingHits := by
  induction room, A, path, c, σ using check_induct store with
  | memo room A path c σ o h => exact fun _ _ _ => rfl
  | assumed room A path c σ h hc => exact fun _ _ _ => rfl
  | ceiling A path c σ h hc =>
      intro above hopen hroom
      have hlt := hopen.length_lt hrecurs hc hfinite
      omega
  | settled room A path c σ h hc ih r hhits => exact fun _ _ _ => hhits
  | tainted room A path c σ h hc ih r hhits =>
      intro above hopen hroom
      apply Goal.solve_kept_eq (fun A path d τ => (check_advances A path d τ).supply)
      intro B path d τ hd hB
      apply ih B path d τ (c :: above) (hopen.nested hrecurs hc hd hB)
      rw [List.length_cons]
      omega

end Run

/-- A new checker with room for one constraint of each kind that the query leads to does not meet
the ceiling, if no constraint leads to another one of its kind. -/
theorem ceilingHits_isSubtype {store : Store} {supply : FreshSupply} {sub sup : Ty} {maxDepth : Nat}
    (hfinite : (store.kinds (⟨sub, sup⟩, supply)).Finite)
    (hrecurs : store.Recurs (⟨sub, sup⟩, supply))
    (hroom : (store.kinds (⟨sub, sup⟩, supply)).ncard ≤ maxDepth) :
    (({ maxDepth } : Checker).isSubtype store supply sub sup).2.1.kept.ceilingHits = 0 ∧
      ¬(({ maxDepth } : Checker).isSubtype store supply sub sup).1.TooDeep := by
  have hopen : Open store (⟨sub, sup⟩, supply) [] [] (⟨sub, sup⟩, supply) :=
    ⟨List.Subset.refl _, .refl, fun _ h => absurd h List.not_mem_nil, List.nodup_nil⟩
  have hhits : (({ maxDepth } : Checker).isSubtype store supply sub sup).2.1.kept.ceilingHits = 0 :=
    ceilingHits_check hfinite hrecurs maxDepth [] [] ⟨sub, sup⟩ ⟨supply, {}⟩ [] hopen hroom
  refine ⟨hhits, fun hdeep => ?_⟩
  have hlt := Checker.ceilingHits_lt_of_tooDeep (k := { maxDepth }) Memo.definite_empty hdeep
  rw [hhits] at hlt
  exact Nat.not_lt_zero _ hlt

/-- Two interfaces with one method each, which has a type parameter and gives the interface itself
at an argument. -/
def twins (arg : Ty) : Store where
  templates := [1, 2].map fun n => (.interface,
    { name := ⟨n⟩
      typeParams := [⟨⟨3⟩, 0⟩]
      methods := [⟨⟨4⟩, [{ typeParams := [⟨⟨5⟩, 0⟩], result := .name ⟨n⟩ .interface [arg] }]⟩] })

def twin (n : UInt32) (t : Ty) : Ty := .name ⟨n⟩ .interface [t]

/-- The first twin at an argument against the second. -/
def twinPair (t u : Ty) : Constraint := ⟨twin 1 t, twin 2 u⟩

/-- The goal of two twins: it makes two variables and asks for the twins at what the argument of the
store becomes with each of them. -/
def IsTwinGoal (arg : TypeVar → Ty) (g : Goal) : Prop :=
  ∃ body, g = .both (.within (.method ⟨4⟩)
      (.both (.fresh [⟨⟨5⟩, 0⟩] [⟨⟨5⟩, 0⟩] body) .trivial)) .trivial ∧
    ∀ v w, ∃ step, body [v] [w] = .within step (.both (.parameters ⟨4⟩ .trivial) (.both .trivial
      (.both .trivial (.both (.nested (twinPair (arg v) (arg w))) .trivial))))

theorem isTwinGoal_nil (t u : Ty) :
    IsTwinGoal (fun _ => .nil) ((twins .nil).goal (twinPair t u)) := by
  refine ⟨_, rfl, fun v w => ?_⟩
  exact ⟨_, rfl⟩

theorem isTwinGoal_var (t u : Ty) :
    IsTwinGoal .var ((twins (.var ⟨⟨5⟩, 0⟩)).goal (twinPair t u)) := by
  refine ⟨_, rfl, fun v w => ?_⟩
  exact ⟨_, rfl⟩

section Twins

variable {arg : TypeVar → Ty} {g : Goal} {store : Store}

/-- The twins at what the argument becomes with a new variable and the next one. -/
def nextTwins (arg : TypeVar → Ty) (n : Nat) : Constraint :=
  twinPair (arg ⟨⟨5⟩, n⟩) (arg ⟨⟨5⟩, n + 1⟩)

theorem IsTwinGoal.asks (h : IsTwinGoal arg g) {s s' : FreshSupply} {d : Constraint}
    (hd : g.Asks s d s') : ∃ n, s.next ≤ n ∧ d = nextTwins arg n ∧ n ≤ s'.next := by
  obtain ⟨body, rfl, hbody⟩ := h
  obtain ((⟨r, hr, hd⟩ | hd) | hd) := hd
  · obtain ⟨step, hstep⟩ := hbody ⟨⟨5⟩, r.next⟩ ⟨⟨5⟩, r.next + 1⟩
    simp only [FreshSupply.drawAll, FreshSupply.draw, hstep, Goal.Asks, false_or, or_false] at hd
    exact ⟨r.next, hr, hd.1, by omega⟩
  · exact hd.elim
  · exact hd.elim

theorem IsTwinGoal.tooDeep (h : IsTwinGoal arg g) {D : Decision Kept} {A : Assumptions}
    {path : Path} {σ : Progress Kept}
    (hD : ∀ path, (D (equalities [⟨⟨5⟩, σ.supply.next⟩] [⟨⟨5⟩, σ.supply.next + 1⟩] ++ A) path
      (nextTwins arg σ.supply.next) { σ with supply := ⟨σ.supply.next + 2⟩ }).1.TooDeep) :
    (g.solve D A path σ).1.TooDeep := by
  obtain ⟨body, rfl, hbody⟩ := h
  obtain ⟨step, hstep⟩ := hbody ⟨⟨5⟩, σ.supply.next⟩ ⟨⟨5⟩, σ.supply.next + 1⟩
  have hnext := hD (path ++ [.method ⟨4⟩] ++ [step])
  unfold nextTwins at hnext
  simp only [Goal.solve, FreshSupply.drawAll, FreshSupply.draw, hstep, Outcome.mapFailure]
  generalize D _ _ _ _ = r at hnext ⊢
  rcases r with ⟨_ | f, τ⟩
  · exact hnext.elim
  · exact hnext

theorem eq_or_nextTwins_of_reaches {t u : Ty} {s : FreshSupply}
    (hgoal : ∀ t u, IsTwinGoal arg (store.goal (twinPair t u))) {b : Asked}
    (h : store.Reaches (twinPair t u, s) b) :
    s.next ≤ b.2.next ∧ (b.1 = twinPair t u ∨ ∃ n, s.next ≤ n ∧ b.1 = nextTwins arg n) := by
  induction h with
  | refl => exact ⟨Nat.le_refl _, .inl rfl⟩
  | @tail b d _ hask ih =>
      obtain ⟨hle, hb⟩ := ih
      -- what was reached before is a pair of twins, and twins ask for new ones only
      have hpair : ∃ t u, b.1 = twinPair t u := by
        rcases hb with hb | ⟨n, _, hb⟩
        · exact ⟨t, u, hb⟩
        · exact ⟨_, _, hb⟩
      obtain ⟨t', u', hb⟩ := hpair
      rw [Store.Asks, hb] at hask
      obtain ⟨n, hn, hd, hnext⟩ := (hgoal t' u').asks hask
      exact ⟨by omega, .inr ⟨n, by omega, hd⟩⟩

theorem exists_perm_of_ne {n : Nat} {v w v' w' : TypeVar} (hne : v ≠ w) (hne' : v' ≠ w')
    (hv : n ≤ v.id) (hw : n ≤ w.id) (hv' : n ≤ v'.id) (hw' : n ≤ w'.id) :
    ∃ ρ : Equiv.Perm TypeVar, (∀ u : TypeVar, u.id < n → ρ u = u) ∧ ρ v = v' ∧ ρ w = w' := by
  -- the first swap brings `v` to its place, and the second one leaves it there
  have hother : Equiv.swap v v' w ≠ v' := by
    intro h
    apply hne
    apply (Equiv.swap v v').injective
    rw [h, Equiv.swap_apply_left]
  refine ⟨(Equiv.swap v v').trans (Equiv.swap (Equiv.swap v v' w) w'), fun u hu => ?_, ?_, ?_⟩
  · have hfix : ∀ {x y : TypeVar}, n ≤ x.id → n ≤ y.id → Equiv.swap x y u = u := by
      intro x y hx hy
      apply Equiv.swap_apply_of_ne_of_ne
      · rintro rfl
        omega
      · rintro rfl
        omega
    have hid : n ≤ (Equiv.swap v v' w).id := by
      rw [Equiv.swap_apply_def]
      split_ifs <;> assumption
    rw [Equiv.trans_apply, hfix hv hv', hfix hid hw']
  · rw [Equiv.trans_apply, Equiv.swap_apply_left, Equiv.swap_apply_of_ne_of_ne hother.symm hne']
  · rw [Equiv.trans_apply, Equiv.swap_apply_left]

theorem kind_nextTwins_var {n k l : Nat} (hk : n ≤ k) (hl : n ≤ l) :
    (nextTwins .var k).kind n = (nextTwins .var l).kind n := by
  have hne : ∀ m, (⟨⟨5⟩, m⟩ : TypeVar) ≠ ⟨⟨5⟩, m + 1⟩ := by simp
  obtain ⟨ρ, hfix, hv, hw⟩ := exists_perm_of_ne (hne k) (hne l) hk (Nat.le_succ_of_le hk) hl
    (Nat.le_succ_of_le hl)
  rw [Constraint.kind_eq_iff]
  refine ⟨ρ, hfix, ?_⟩
  rw [nextTwins, nextTwins, ← hv, ← hw]
  rfl

theorem kinds_twins_subset (hgoal : ∀ t u, IsTwinGoal .var (store.goal (twinPair t u))) (t u : Ty)
    (s : FreshSupply) :
    store.kinds (twinPair t u, s) ⊆
      {(twinPair t u).kind s.next, (nextTwins .var s.next).kind s.next} := by
  rintro k ⟨b, hreach, rfl⟩
  rcases (eq_or_nextTwins_of_reaches hgoal hreach).2 with hb | ⟨n, hn, hb⟩
  · rw [hb]
    exact Set.mem_insert _ _
  · rw [hb, kind_nextTwins_var hn (Nat.le_refl _)]
    exact Set.mem_insert_of_mem _ rfl

theorem nextTwins_notMem {n : Nat} {A : Assumptions}
    (hA : ∀ a ∈ A, FreshSupply.Above ⟨n⟩ a.vars) :
    nextTwins .var n ∉ equalities [⟨⟨5⟩, n⟩] [⟨⟨5⟩, n + 1⟩] ++ A := by
  intro hmem
  rcases List.mem_append.mp hmem with hmem | hmem
  -- an equality is about two variables
  · obtain ⟨e, _, he⟩ := List.mem_flatMap.mp hmem
    rcases List.mem_pair.mp he with he | he <;> cases he
  -- an assumption has no variable that is yet to be drawn
  · have hlt := hA _ hmem ⟨⟨5⟩, n⟩ List.mem_cons_self
    exact Nat.lt_irrefl n hlt

/-- The twins meet the ceiling however high it is: each time they are asked with new variables,
which no open constraint has. -/
theorem tooDeep_check_twins (hgoal : ∀ t u, IsTwinGoal .var (store.goal (twinPair t u)))
    (room : Nat) {A : Assumptions} {path : Path} {t u : Ty} {σ : Progress Kept}
    (hmemo : σ.kept.memo = {}) (ht : σ.supply.Above (twinPair t u).vars)
    (hA : ∀ a ∈ A, σ.supply.Above a.vars) (hc : twinPair t u ∉ A) :
    (check store room A path (twinPair t u) σ).1.TooDeep := by
  induction room generalizing A path t u σ with
  | zero =>
      rw [check_zero (by rw [hmemo]; rfl) hc]
      rfl
  | succ room ih =>
      have hdrawn := drawn_drawAll σ.supply [⟨⟨5⟩, 0⟩] [⟨⟨5⟩, 0⟩]
      have hopen : ∀ a ∈ twinPair t u :: A, σ.supply.Above a.vars :=
        List.forall_mem_cons.mpr ⟨ht, hA⟩
      have hdeep : ((store.goal (twinPair t u)).solve (check store room) (twinPair t u :: A)
          (path ++ [.types (twinPair t u)]) σ).1.TooDeep := by
        apply (hgoal t u).tooDeep
        intro path
        apply ih
        · exact hmemo
        · exact hdrawn.above
        · exact (hdrawn.later hopen).after
        · exact nextTwins_notMem hopen
      rw [check_succ (by rw [hmemo]; rfl) hc]
      dsimp only
      split <;> exact hdeep

end Twins

/-- Where the argument has no variables the twins come up again as they are. -/
theorem ceilingHits_isSubtype_twins :
    (({ maxDepth := 1 } : Checker).isSubtype (twins .nil) {} (twin 1 .nil)
        (twin 2 .nil)).2.1.kept.ceilingHits = 0 ∧
      ¬(({ maxDepth := 1 } : Checker).isSubtype (twins .nil) {} (twin 1 .nil)
        (twin 2 .nil)).1.TooDeep := by
  have hsame : ∀ b, (twins .nil).Reaches (twinPair .nil .nil, {}) b → b.1 = twinPair .nil .nil := by
    intro b hb
    rcases (eq_or_nextTwins_of_reaches isTwinGoal_nil hb).2 with hb | ⟨n, _, hb⟩ <;> exact hb
  have hkinds : (twins .nil).kinds (twinPair .nil .nil, {}) ⊆ {(twinPair .nil .nil).kind 1} := by
    rintro k ⟨b, hb, rfl⟩
    rw [hsame b hb]
    rfl
  have hfinite := (Set.finite_singleton _).subset hkinds
  have hrecurs : (twins .nil).Recurs (twinPair .nil .nil, {}) := by
    intro b d hb hd _
    rw [hsame b hb, hsame d (hb.trans hd)]
  have hroom : ((twins .nil).kinds (twinPair .nil .nil, {})).ncard ≤ 1 :=
    (Set.ncard_le_ncard hkinds (Set.finite_singleton _)).trans_eq (Set.ncard_singleton _)
  exact ceilingHits_isSubtype hfinite hrecurs hroom

/-- Where the argument is the type parameter, two kinds of constraints are all that the twins lead
to, and room for two is not enough, nor is any room. -/
theorem not_ceilingHits_isSubtype_twins :
    ((twins (.var ⟨⟨5⟩, 0⟩)).kinds (⟨twin 1 .nil, twin 2 .nil⟩, {})).Finite ∧
      ((twins (.var ⟨⟨5⟩, 0⟩)).kinds (⟨twin 1 .nil, twin 2 .nil⟩, {})).ncard ≤ 2 ∧
      ∀ maxDepth,
        (({ maxDepth } : Checker).isSubtype (twins (.var ⟨⟨5⟩, 0⟩)) {} (twin 1 .nil)
            (twin 2 .nil)).2.1.kept.ceilingHits ≠ 0 ∧
          (({ maxDepth } : Checker).isSubtype (twins (.var ⟨⟨5⟩, 0⟩)) {} (twin 1 .nil)
            (twin 2 .nil)).1.TooDeep := by
  have hpair : Set.Finite {(twinPair .nil .nil).kind 1, (nextTwins .var 1).kind 1} :=
    Set.toFinite _
  have hkinds := kinds_twins_subset isTwinGoal_var .nil .nil {}
  refine ⟨hpair.subset hkinds, ?_, fun maxDepth => ?_⟩
  · have htwo := Set.ncard_insert_le ((twinPair .nil .nil).kind 1) {(nextTwins .var 1).kind 1}
    rw [Set.ncard_singleton] at htwo
    exact (Set.ncard_le_ncard hkinds hpair).trans htwo
  · have hdeep : (({ maxDepth } : Checker).isSubtype (twins (.var ⟨⟨5⟩, 0⟩)) {} (twin 1 .nil)
        (twin 2 .nil)).1.TooDeep := by
      apply tooDeep_check_twins isTwinGoal_var
      · rfl
      · exact fun v hv => absurd hv List.not_mem_nil
      · exact fun a ha => absurd ha List.not_mem_nil
      · exact List.not_mem_nil
    have hlt := Checker.ceilingHits_lt_of_tooDeep (k := { maxDepth }) Memo.definite_empty hdeep
    exact ⟨Nat.ne_of_gt hlt, hdeep⟩

end Subtyping
