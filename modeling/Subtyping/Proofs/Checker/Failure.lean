import Subtyping.Proofs.Checker.Progress
import Subtyping.Proofs.Checker.Scope
import Subtyping.Proofs.Unfolding.Descend

/-!
# Failures are refutations

A check that fails without meeting the depth limit has found a constraint that the rules refute at
some level, and so are all failures that it answers from memory and leaves behind there. Successes
need no trust for that: they only ever make a check go on where it could have failed.
-/

namespace Subtyping

/-- Some number of levels of rules is enough to refute the constraint. -/
def Refuted (store : Store) (s : FreshSupply) (E : Assumptions) (c : Constraint) : Prop :=
  ∃ n, ¬Holds store false n s E c

/-- All failures in memory are refutations. -/
def FailuresRefuted (store : Store) (E : Assumptions) (σ : Progress Kept) : Prop :=
  ∀ c f, σ.kept.memo.get? c = some (.failure f) →
    σ.supply.Above c.vars ∧ Refuted store σ.supply E c

/-- What comes out of a run is right about failures: those in memory are refutations at a later time,
and so is its own if it did not meet the depth limit. -/
def FailsRightly (store : Store) (E : Assumptions) (σ : Progress Kept)
    (r : Outcome × Progress Kept) (refuted : FreshSupply → Assumptions → Prop) : Prop :=
  ∃ E', Later σ.supply E r.2.supply E' ∧ FailuresRefuted store E' r.2 ∧
    (r.1 ≠ .success → r.2.kept.ceilingHits = σ.kept.ceilingHits → refuted r.2.supply E')

section Memory

variable {store : Store} {E E' : Assumptions} {σ : Progress Kept}

theorem FailuresRefuted.later (h : FailuresRefuted store E σ) (hstore : σ.supply.Above store.vars)
    {s : FreshSupply} (hl : Later σ.supply E s E') :
    FailuresRefuted store E' { σ with supply := s } := by
  intro c f hc
  obtain ⟨habove, n, hn⟩ := h c f hc
  exact ⟨habove.of_le hl.le, n, mt (hl.holds_iff hstore habove).mpr hn⟩

theorem FailuresRefuted.insert (h : FailuresRefuted store E σ) {c : Constraint} {o : Outcome}
    (ho : o ≠ .success → σ.supply.Above c.vars ∧ Refuted store σ.supply E c) :
    FailuresRefuted store E { σ with kept.memo := σ.kept.memo.insert c o } := by
  intro d f hd
  rcases Memo.eq_or_get?_of_get?_insert hd with ⟨rfl, rfl⟩ | hd
  · exact ho (by simp)
  · exact h d f hd

end Memory

section Run

variable {store : Store} {room : Nat}

private theorem FailsRightly.of_success {E E' : Assumptions} {σ τ : Progress Kept}
    {refuted : FreshSupply → Assumptions → Prop} (hl : Later σ.supply E τ.supply E')
    (hmemo : FailuresRefuted store E' τ) : FailsRightly store E σ (.success, τ) refuted := by
  refine ⟨E', hl, hmemo, fun hne => ?_⟩
  exact absurd rfl hne

theorem solve_failsRightly
    (H : ∀ A path c (σ : Progress Kept) vs E, Scope store vs E A σ.supply → c.vars ⊆ vs →
      FailuresRefuted store E σ →
        FailsRightly store E σ (check store room A path c σ) fun s E => Refuted store s E c)
    {g : Goal} {vs : List TypeVar} (hg : g.Supported vs) (A : Assumptions) (path : Path)
    (σ : Progress Kept) {E : Assumptions} (hscope : Scope store vs E A σ.supply)
    (hmemo : FailuresRefuted store E σ) :
    FailsRightly store E σ (g.solve (check store room) A path σ) fun s E =>
      ∃ n, ¬g.Shown (Holds store false n) s E := by
  have hadvances : ∀ (g : Goal) A path (σ : Progress Kept), σ.kept.ceilingHits ≤
      (g.solve (check store room) A path σ).2.kept.ceilingHits :=
    fun g A path σ => (solve_check_advances check_advances g A path σ).hits
  induction g generalizing vs A path σ E with
  | trivial => exact .of_success (.refl hscope.before) hmemo
  | impossible reason => exact ⟨E, .refl hscope.before, hmemo, fun _ _ => ⟨0, id⟩⟩
  | nested c => exact H A path c σ vs E hscope (fun v hv => hg.mem_of_mem_vars hv) hmemo
  | both g h ihg ihh =>
      obtain ⟨E₁, hl₁, hmemo₁, hfail₁⟩ := ihg hg.both_left A path σ hscope hmemo
      have hhits₁ := hadvances g A path σ
      rw [Goal.solve]
      generalize g.solve (check store room) A path σ = r at hl₁ hmemo₁ hfail₁ hhits₁ ⊢
      rcases r with ⟨_ | f, τ⟩
      · obtain ⟨E₂, hl₂, hmemo₂, hfail₂⟩ := ihh hg.both_right A path τ (hscope.later hl₁) hmemo₁
        have hhits₂ := hadvances h A path τ
        refine ⟨E₂, hl₁.trans hl₂, hmemo₂, fun hne hsame => ?_⟩
        dsimp only at hne hsame hhits₁
        obtain ⟨n, hn⟩ := hfail₂ hne (by omega)
        exact ⟨n, fun hboth => hn hboth.2⟩
      · refine ⟨E₁, hl₁, hmemo₁, fun hne hsame => ?_⟩
        obtain ⟨n, hn⟩ := hfail₁ hne hsame
        exact ⟨n, fun hboth => hn hboth.1⟩
  | either g h ihg ihh =>
      obtain ⟨E₁, hl₁, hmemo₁, hfail₁⟩ := ihg hg.either_left A path σ hscope hmemo
      have hhits₁ := hadvances g A path σ
      rw [Goal.solve]
      generalize g.solve (check store room) A path σ = r at hl₁ hmemo₁ hfail₁ hhits₁ ⊢
      rcases r with ⟨_ | f, τ⟩
      · exact .of_success hl₁ hmemo₁
      · have hscope₁ := hscope.later hl₁
        obtain ⟨E₂, hl₂, hmemo₂, hfail₂⟩ := ihh hg.either_right A path τ hscope₁ hmemo₁
        have hhits₂ := hadvances h A path τ
        dsimp only at hl₂ hmemo₂ hfail₂ hhits₁ hhits₂ ⊢
        generalize h.solve (check store room) A path τ = r at hl₂ hmemo₂ hfail₂ hhits₂ ⊢
        rcases r with ⟨_ | f', υ⟩
        · exact .of_success (hl₁.trans hl₂) hmemo₂
        · refine ⟨E₂, hl₁.trans hl₂, hmemo₂, fun _ hsame => ?_⟩
          dsimp only at hsame hhits₂ hfail₁ hfail₂
          obtain ⟨n₁, hn₁⟩ := hfail₁ (by simp) (by omega)
          obtain ⟨n₂, hn₂⟩ := hfail₂ (by simp) (by omega)
          -- the levels that refute the first part refute it as well when the second is through
          rw [hl₂.shown_iff hscope₁.store_above hscope₁.above hg.either_left] at hn₁
          refine ⟨max n₁ n₂, fun hsome => hsome.elim (fun h₁ => hn₁ ?_) fun h₂ => hn₂ ?_⟩
          · exact h₁.mono_holds (Nat.le_max_left n₁ n₂) (List.Subset.refl E₂)
          · exact h₂.mono_holds (Nat.le_max_right n₁ n₂) (List.Subset.refl E₂)
  | within step g ih => exact ih hg.within A (path ++ [step]) σ hscope hmemo
  | parameters method g ih =>
      obtain ⟨E', hl, hmemo', hfail⟩ := ih hg.parameters A path σ hscope hmemo
      rw [Goal.solve]
      generalize g.solve (check store room) A path σ = r at hl hmemo' hfail ⊢
      rcases r with ⟨_ | f, τ⟩
      · exact ⟨E', hl, hmemo', hfail⟩
      · exact ⟨E', hl, hmemo', fun _ => hfail (by simp)⟩
  | fresh sub sup body ih =>
      have hdrawn := drawn_drawAll σ.supply sub sup
      have hlater := hdrawn.later hscope.before
      have hscope' := hscope.drawn hdrawn
      obtain ⟨E', hl, hmemo', hfail⟩ := ih _ _ (hg.fresh _ _) _ path _ hscope'
        (hmemo.later hscope.store_above hlater)
      refine ⟨E', hlater.trans hl, hmemo', fun hne hsame => ?_⟩
      obtain ⟨n, hn⟩ := hfail hne hsame
      exact ⟨n, fun hshown => hn ((hscope.shown_fresh_iff hg hl).mpr hshown)⟩

theorem check_failsRightly (A : Assumptions) (path : Path) (c : Constraint) (σ : Progress Kept)
    (vs : List TypeVar) (E : Assumptions) (hscope : Scope store vs E A σ.supply) (hc : c.vars ⊆ vs)
    (hmemo : FailuresRefuted store E σ) :
    FailsRightly store E σ (check store room A path c σ) fun s E => Refuted store s E c := by
  induction room, A, path, c, σ using check_induct store generalizing vs E with
  | memo room A path c σ o h =>
      cases o with
      | success => exact .of_success (.refl hscope.before) hmemo
      | failure f => exact ⟨E, .refl hscope.before, hmemo, fun _ _ => (hmemo c f h).2⟩
  | assumed room A path c σ h hA => exact .of_success (.refl hscope.before) hmemo
  | ceiling A path c σ h hA =>
      exact ⟨E, .refl hscope.before, hmemo, fun _ hsame => absurd hsame (Nat.succ_ne_self _)⟩
  | settled room A path c σ h hA ih r hhits =>
      obtain ⟨E', hl, hmemo', hfail⟩ := solve_failsRightly ih (store.goal_supported c) (c :: A)
        (path ++ [.types c]) σ (hscope.goal hc) hmemo
      have hrefuted : r.1 ≠ .success → Refuted store r.2.supply E' c := by
        intro hne
        obtain ⟨n, hn⟩ := hfail hne hhits
        exact ⟨n + 1, fun hholds => hholds.elim (hscope.not_mem_later hc hA hl) hn⟩
      refine ⟨E', hl, hmemo'.insert fun hne => ⟨?_, hrefuted fun he => hne ?_⟩,
        fun hne _ => hrefuted hne⟩
      · exact fun v hv => Nat.lt_of_lt_of_le (hscope.above v (hc hv)) hl.le
      · rw [he]
        rfl
  | tainted room A path c σ h hA ih r hhits =>
      obtain ⟨E', hl, hmemo', _⟩ := solve_failsRightly ih (store.goal_supported c) (c :: A)
        (path ++ [.types c]) σ (hscope.goal hc) hmemo
      exact ⟨E', hl, hmemo', fun _ hsame => absurd hsame hhits⟩

end Run

end Subtyping
