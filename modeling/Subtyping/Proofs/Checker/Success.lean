import Subtyping.Proofs.Checker.Scope
import Subtyping.Proofs.Checker.Watched
import Subtyping.Proofs.Unfolding.Descend

/-!
# Successes that can be trusted

A success is found while constraints further up the path are taken to hold, and it is kept when one of
them turns out not to. If none does, that is, if every constraint that was taken to hold ends up as a
success in memory, then all successes are right. Level by level: what was taken to hold and what is in
memory at the end holds to `n` levels, so every constraint whose goal was solved holds to `n + 1`.
-/

namespace Subtyping

/-- All successes in memory hold to so many levels. -/
def SuccessesHold (store : Store) (n : Nat) (E : Assumptions) (σ : Progress Watched) : Prop :=
  ∀ c, σ.kept.kept.memo.get? c = some .success → Holds store false n σ.supply E c

/-- All successes in memory and all that was taken to hold hold to so many levels. -/
def Vouched (store : Store) (n : Nat) (E : Assumptions) (σ : Progress Watched) : Prop :=
  SuccessesHold store n E σ ∧ ∀ c ∈ σ.kept.granted, Holds store false n σ.supply E c

/-- Successes in memory and what was taken to hold are about variables that have been made. -/
def Placed (σ : Progress Watched) : Prop :=
  ∀ c, σ.kept.kept.memo.get? c = some .success ∨ c ∈ σ.kept.granted → σ.supply.Above c.vars

/-- What comes out of a run is right about successes, to so many levels as can be vouched for in the
end. Those that it leaves in memory hold to one level more if those before it did. -/
def SucceedsRightly (store : Store) (E : Assumptions) (σ : Progress Watched)
    (r : Outcome × Progress Watched) (shown : Nat → FreshSupply → Assumptions → Prop) : Prop :=
  ∃ E', Later σ.supply E r.2.supply E' ∧ Placed r.2 ∧ ∀ n, Vouched store n E' r.2 →
    (SuccessesHold store (n + 1) E σ → SuccessesHold store (n + 1) E' r.2) ∧
      (r.1 = .success → shown n r.2.supply E')

section Memory

variable {store : Store} {n : Nat} {E E' : Assumptions} {σ τ : Progress Watched}

theorem SuccessesHold.later (h : SuccessesHold store n E σ) (hplaced : Placed σ)
    (hstore : σ.supply.Above store.vars) {s : FreshSupply} (hl : Later σ.supply E s E') :
    SuccessesHold store n E' { σ with supply := s } := by
  intro c hc
  apply (hl.holds_iff hstore (hplaced c (.inl hc))).mp
  exact h c hc

theorem Vouched.earlier (h : Vouched store n E' τ) (hextends : Extends σ τ) (hplaced : Placed σ)
    (hstore : σ.supply.Above store.vars) (hl : Later σ.supply E τ.supply E') :
    Vouched store n E σ where
  left c hc := (hl.holds_iff hstore (hplaced c (.inl hc))).mpr (h.1 c (hextends.keeps c _ hc))
  right c hc := (hl.holds_iff hstore (hplaced c (.inr hc))).mpr (h.2 c (hextends.granted hc))

theorem Placed.later (h : Placed σ) {s : FreshSupply} (hle : σ.supply.next ≤ s.next) :
    Placed { σ with supply := s } := by
  intro c hc
  exact (h c hc).of_le hle

end Memory

section Run

variable {store : Store} {room : Nat}

private theorem SucceedsRightly.of_failure {E E' : Assumptions} {σ τ : Progress Watched}
    {shown : Nat → FreshSupply → Assumptions → Prop} {f : Failure}
    (hl : Later σ.supply E τ.supply E') (hplaced : Placed τ)
    (hmemo : ∀ n, Vouched store n E' τ → SuccessesHold store (n + 1) E σ →
      SuccessesHold store (n + 1) E' τ) : SucceedsRightly store E σ (.failure f, τ) shown := by
  refine ⟨E', hl, hplaced, fun n hvouched => ⟨hmemo n hvouched, ?_⟩⟩
  rintro ⟨⟩

private theorem solve_succeedsRightly
    (H : ∀ A path c (σ : Progress Watched) vs E, Scope store vs E A σ.supply →
      (∀ a ∈ A, .types a ∈ path ∨ a ∈ E) → c.vars ⊆ vs → Placed σ →
        SucceedsRightly store E σ (watch store room A path c σ)
          fun n s E => Holds store false n s E c)
    {g : Goal} {vs : List TypeVar} (hg : g.Supported vs) (A : Assumptions) (path : Path)
    (σ : Progress Watched) {E : Assumptions} (hscope : Scope store vs E A σ.supply)
    (hpath : ∀ a ∈ A, .types a ∈ path ∨ a ∈ E) (hplaced : Placed σ) :
    SucceedsRightly store E σ (g.solve (watch store room) A path σ) fun n s E =>
      g.Shown (Holds store false n) s E := by
  have hextends : ∀ (g : Goal) A path (σ : Progress Watched),
      Extends σ (g.solve (watch store room) A path σ).2 := solve_watch_extends watch_extends
  induction g generalizing vs A path σ E with
  | trivial => exact ⟨E, .refl hscope.before, hplaced, fun _ _ => ⟨id, fun _ => trivial⟩⟩
  | impossible reason => exact .of_failure (.refl hscope.before) hplaced fun _ _ => id
  | nested c => exact H A path c σ vs E hscope hpath (fun v hv => hg.mem_of_mem_vars hv) hplaced
  | both g h ihg ihh =>
      obtain ⟨E₁, hl₁, hplaced₁, hright₁⟩ := ihg hg.both_left A path σ hscope hpath hplaced
      rw [Goal.solve]
      generalize g.solve (watch store room) A path σ = r at hl₁ hplaced₁ hright₁ ⊢
      rcases r with ⟨_ | f, τ⟩
      · have hscope₁ := hscope.later hl₁
        have hpath₁ : ∀ a ∈ A, .types a ∈ path ∨ a ∈ E₁ :=
          fun a ha => (hpath a ha).imp_right fun hE => hl₁.subset hE
        obtain ⟨E₂, hl₂, hplaced₂, hright₂⟩ := ihh hg.both_right A path τ hscope₁ hpath₁ hplaced₁
        refine ⟨E₂, hl₁.trans hl₂, hplaced₂, fun n hvouched => ?_⟩
        have hvouched₁ : Vouched store n E₁ τ :=
          hvouched.earlier (hextends h A path τ) hplaced₁ hscope₁.store_above hl₂
        obtain ⟨hmemo₁, hshown₁⟩ := hright₁ n hvouched₁
        obtain ⟨hmemo₂, hshown₂⟩ := hright₂ n hvouched
        refine ⟨fun hmemo => hmemo₂ (hmemo₁ hmemo), fun hsuccess => ⟨?_, hshown₂ hsuccess⟩⟩
        exact (hl₂.shown_iff hscope₁.store_above hscope₁.above hg.both_left).mp (hshown₁ rfl)
      · exact .of_failure hl₁ hplaced₁ fun n hvouched => (hright₁ n hvouched).1
  | either g h ihg ihh =>
      obtain ⟨E₁, hl₁, hplaced₁, hright₁⟩ := ihg hg.either_left A path σ hscope hpath hplaced
      rw [Goal.solve]
      generalize g.solve (watch store room) A path σ = r at hl₁ hplaced₁ hright₁ ⊢
      rcases r with ⟨_ | f, τ⟩
      · exact ⟨E₁, hl₁, hplaced₁, fun n hvouched => ⟨(hright₁ n hvouched).1,
          fun hsuccess => .inl ((hright₁ n hvouched).2 hsuccess)⟩⟩
      · have hscope₁ := hscope.later hl₁
        have hpath₁ : ∀ a ∈ A, .types a ∈ path ∨ a ∈ E₁ :=
          fun a ha => (hpath a ha).imp_right fun hE => hl₁.subset hE
        obtain ⟨E₂, hl₂, hplaced₂, hright₂⟩ := ihh hg.either_right A path τ hscope₁ hpath₁ hplaced₁
        have hextends₂ := hextends h A path τ
        dsimp only at hl₂ hplaced₂ hright₂ hextends₂ ⊢
        generalize h.solve (watch store room) A path τ = r at hl₂ hplaced₂ hright₂ hextends₂ ⊢
        -- a part that fails still leaves successes in memory
        have hmemo : ∀ n, Vouched store n E₂ r.2 →
            SuccessesHold store (n + 1) E σ → SuccessesHold store (n + 1) E₂ r.2 := by
          intro n hvouched hmemo
          have hvouched₁ : Vouched store n E₁ τ :=
            hvouched.earlier hextends₂ hplaced₁ hscope₁.store_above hl₂
          exact (hright₂ n hvouched).1 ((hright₁ n hvouched₁).1 hmemo)
        rcases r with ⟨_ | f', υ⟩
        · exact ⟨E₂, hl₁.trans hl₂, hplaced₂, fun n hvouched => ⟨hmemo n hvouched,
            fun hsuccess => .inr ((hright₂ n hvouched).2 hsuccess)⟩⟩
        · exact .of_failure (hl₁.trans hl₂) hplaced₂ hmemo
  | within step g ih =>
      have hpath' : ∀ a ∈ A, .types a ∈ path ++ [step] ∨ a ∈ E :=
        fun a ha => (hpath a ha).imp_left (List.mem_append_left [step])
      exact ih hg.within A (path ++ [step]) σ hscope hpath' hplaced
  | parameters method g ih =>
      obtain ⟨E', hl, hplaced', hright⟩ := ih hg.parameters A path σ hscope hpath hplaced
      rw [Goal.solve]
      generalize g.solve (watch store room) A path σ = r at hl hplaced' hright ⊢
      rcases r with ⟨_ | f, τ⟩
      · exact ⟨E', hl, hplaced', hright⟩
      · exact .of_failure hl hplaced' fun n hvouched => (hright n hvouched).1
  | fresh sub sup body ih =>
      have hdrawn := drawn_drawAll σ.supply sub sup
      have hlater := hdrawn.later hscope.before
      have hscope' := hscope.drawn hdrawn
      have hpath' : ∀ a ∈ equalities (σ.supply.drawAll sub).1
          ((σ.supply.drawAll sub).2.drawAll sup).1 ++ A,
          .types a ∈ path ∨ a ∈ equalities (σ.supply.drawAll sub).1
            ((σ.supply.drawAll sub).2.drawAll sup).1 ++ E := by
        intro a ha
        rcases List.mem_append.mp ha with ha | ha
        · exact .inr (List.mem_append_left _ ha)
        · exact (hpath a ha).imp_right (List.mem_append_right _)
      obtain ⟨E', hl, hplaced', hright⟩ := ih _ _ (hg.fresh _ _) _ path _ hscope' hpath'
        (hplaced.later hdrawn.le)
      refine ⟨E', hlater.trans hl, hplaced', fun n hvouched => ⟨fun hmemo => ?_, fun hsuccess => ?_⟩⟩
      · exact (hright n hvouched).1 (hmemo.later hplaced hscope.store_above hlater)
      · exact (hscope.shown_fresh_iff hg hl).mp ((hright n hvouched).2 hsuccess)

theorem watch_succeedsRightly (A : Assumptions) (path : Path) (c : Constraint)
    (σ : Progress Watched) (vs : List TypeVar) (E : Assumptions)
    (hscope : Scope store vs E A σ.supply) (hpath : ∀ a ∈ A, .types a ∈ path ∨ a ∈ E)
    (hc : c.vars ⊆ vs) (hplaced : Placed σ) :
    SucceedsRightly store E σ (watch store room A path c σ)
      fun n s E => Holds store false n s E c := by
  have hgoalPath : ∀ (A : Assumptions) (path : Path) (c : Constraint) (E : Assumptions),
      (∀ a ∈ A, .types a ∈ path ∨ a ∈ E) →
        ∀ a ∈ c :: A, .types a ∈ path ++ [.types c] ∨ a ∈ E := by
    intro A path c E hpath a ha
    rcases List.mem_cons.mp ha with rfl | ha
    · exact .inl (List.mem_append_right _ (List.mem_singleton_self _))
    · exact (hpath a ha).imp_left (List.mem_append_left _)
  have hself : ∀ {n s E} {c : Constraint}, (store.goal c).Shown (Holds store false n) s E →
      Holds store false (n + 1) s E c := .inr
  induction room, A, path, c, σ using watch_induct store generalizing vs E with
  | memo room A path c σ o h =>
      cases o with
      | success =>
          exact ⟨E, .refl hscope.before, hplaced, fun n hvouched => ⟨id, fun _ => hvouched.1 c h⟩⟩
      | failure f => exact .of_failure (.refl hscope.before) hplaced fun _ _ => id
  | granted room A path c σ h hA hmem =>
      have habove : σ.supply.Above c.vars := fun v hv => hscope.above v (hc hv)
      refine ⟨E, .refl hscope.before, fun d hd => ?_, fun n hvouched => ⟨id, fun _ => ?_⟩⟩
      · rcases hd with hd | hd
        · exact hplaced d (.inl hd)
        · rcases List.mem_cons.mp hd with rfl | hd
          · exact habove
          · exact hplaced d (.inr hd)
      · exact hvouched.2 c List.mem_cons_self
  | assumed room A path c σ h hA hmem =>
      have hE : c ∈ E := (hpath c hA).resolve_left hmem
      refine ⟨E, .refl hscope.before, hplaced, fun n _ => ⟨id, fun _ => ?_⟩⟩
      cases n with
      | zero => trivial
      | succ n => exact .inl hE
  | ceiling A path c σ h hA =>
      exact .of_failure (.refl hscope.before) hplaced fun _ _ => id
  | settled room A path c σ h hA ih r hhits =>
      obtain ⟨E', hl, hplaced', hright⟩ := solve_succeedsRightly ih (store.goal_supported c) (c :: A)
        (path ++ [.types c]) σ (hscope.goal hc) (hgoalPath A path c E hpath) hplaced
      have hvacant : r.2.kept.kept.memo.get? c = none := vacant_of_solve_watch h _
      have habove : r.2.supply.Above c.vars :=
        fun v hv => Nat.lt_of_lt_of_le (hscope.above v (hc hv)) hl.le
      have hentry : ∀ d, (r.2.kept.kept.memo.insert c
          (r.1.mapFailure (Failure.dropPath path.length))).get? d = some .success →
            d = c ∧ r.1 = .success ∨ r.2.kept.kept.memo.get? d = some .success := by
        intro d hd
        exact (Memo.eq_or_get?_of_get?_insert hd).imp_left
          (And.imp_right Outcome.mapFailure_eq_success_iff.mp)
      have hother : ∀ d, r.2.kept.kept.memo.get? d = some .success → (r.2.kept.kept.memo.insert c
          (r.1.mapFailure (Failure.dropPath path.length))).get? d = some .success := by
        intro d hd
        rwa [Memo.get?_insert_of_ne _ (Memo.ne_of_get? hvacant hd)]
      refine ⟨E', hl, fun d hd => ?_, fun n hvouched => ?_⟩
      · rcases hd with hd | hd
        · rcases hentry d hd with ⟨rfl, _⟩ | hd
          · exact habove
          · exact hplaced' d (.inl hd)
        · exact hplaced' d (.inr hd)
      · have hbefore : Vouched store n E' r.2 := ⟨fun d hd => hvouched.1 d (hother d hd), hvouched.2⟩
        obtain ⟨hmemo', hshown⟩ := hright n hbefore
        refine ⟨fun hmemo d hd => ?_, fun hsuccess => ?_⟩
        · rcases hentry d hd with ⟨rfl, hsuccess⟩ | hd
          · exact hself (hshown hsuccess)
          · exact hmemo' hmemo d hd
        · exact (hself (hshown hsuccess)).mono (Nat.le_succ n) (List.Subset.refl E')
  | tainted room A path c σ h hA ih r hhits =>
      obtain ⟨E', hl, hplaced', hright⟩ := solve_succeedsRightly ih (store.goal_supported c) (c :: A)
        (path ++ [.types c]) σ (hscope.goal hc) (hgoalPath A path c E hpath) hplaced
      refine ⟨E', hl, hplaced', fun n hvouched => ⟨(hright n hvouched).1, fun hsuccess => ?_⟩⟩
      have hholds := hself ((hright n hvouched).2 hsuccess)
      exact hholds.mono (Nat.le_succ n) (List.Subset.refl E')

end Run

end Subtyping
