import Subtyping.Proofs.Checker.History
import Subtyping.Proofs.Checker.Room
import Subtyping.Proofs.Checker.TooDeep
import Subtyping.Proofs.Relabel.Supply

/-!
# Failures for good

When all alternatives fail, the failure of the first one is reported, whatever made the others fail.
So it takes more than another reason for a failure to have nothing to do with the depth limit: each of
the alternatives has to fail for such a reason, and theirs in turn (`Store.FailsForGood`). Such a
failure is a refutation (`Store.refuted_of_failsForGood`), and no higher limit makes the check succeed
(`isSubtype_of_failsForGood`).
-/

namespace Subtyping

/-- A goal that fails by itself or by calls that fail for good. Of alternatives, all do. -/
def Goal.FailsForGood (decide : Decision Kept) (final : Call Kept → Prop) :
    Goal → Assumptions → Path → Progress Kept → Prop
  | trivial, _, _, _ => False
  | impossible _, _, _, _ => True
  | nested c, assumed, path, σ => final ⟨assumed, path, c, σ⟩
  | both g h, assumed, path, σ =>
      g.FailsForGood decide final assumed path σ ∨
        (g.solve decide assumed path σ).1 = .success ∧
          h.FailsForGood decide final assumed path (g.solve decide assumed path σ).2
  | either g h, assumed, path, σ =>
      g.FailsForGood decide final assumed path σ ∧
        h.FailsForGood decide final assumed path (g.solve decide assumed path σ).2
  | within step g, assumed, path, σ => g.FailsForGood decide final assumed (path ++ [step]) σ
  | parameters _ g, assumed, path, σ => g.FailsForGood decide final assumed path σ
  | fresh sub sup body, assumed, path, σ =>
      let (vs, supply) := σ.supply.drawAll sub
      let (ws, supply) := supply.drawAll sup
      (body vs ws).FailsForGood decide final (equalities vs ws ++ assumed) path { σ with supply }

/-- Whether a call finds a failure in memory. -/
def Call.RecallsFailure (x : Call Kept) : Prop :=
  ∃ f, x.progress.kept.memo.get? x.constraint = some (.failure f)

/-- Whether a call fails with so much room, and would not succeed with more: it finds a failure in
memory, or its goal fails for good. -/
def Store.FailsForGood (store : Store) (room : Nat) (x : Call Kept) : Prop :=
  match room with
  | 0 => x.RecallsFailure
  | room + 1 => x.RecallsFailure ∨ x.Undecided ∧
      (store.goal x.constraint).FailsForGood (check store room) (store.FailsForGood room)
        (x.constraint :: x.assumed) (x.path ++ [.types x.constraint]) x.progress

section Decidable

instance Goal.decidableFailsForGood {decide : Decision Kept} {final : Call Kept → Prop}
    [DecidablePred final] (g : Goal) (A : Assumptions) (path : Path) (σ : Progress Kept) :
    Decidable (g.FailsForGood decide final A path σ) :=
  match g with
  | trivial => inferInstanceAs (Decidable False)
  | impossible _ => inferInstanceAs (Decidable True)
  | nested c => inferInstanceAs (Decidable (final ⟨A, path, c, σ⟩))
  | both g h =>
      have _ : Decidable (g.FailsForGood decide final A path σ) := g.decidableFailsForGood A path σ
      have _ : Decidable (h.FailsForGood decide final A path (g.solve decide A path σ).2) :=
        h.decidableFailsForGood A path _
      instDecidableOr
  | either g h =>
      have _ : Decidable (g.FailsForGood decide final A path σ) := g.decidableFailsForGood A path σ
      have _ : Decidable (h.FailsForGood decide final A path (g.solve decide A path σ).2) :=
        h.decidableFailsForGood A path _
      instDecidableAnd
  | within step g => g.decidableFailsForGood A (path ++ [step]) σ
  | parameters _ g => g.decidableFailsForGood A path σ
  | fresh _ _ body => (body _ _).decidableFailsForGood _ path _

instance (x : Call Kept) : Decidable x.RecallsFailure :=
  match h : x.progress.kept.memo.get? x.constraint with
  | some (.failure f) => isTrue ⟨f, h⟩
  | some .success => isFalse fun ⟨f, hf⟩ => by rw [h] at hf; cases hf
  | none => isFalse fun ⟨f, hf⟩ => by rw [h] at hf; cases hf

instance Store.decidableFailsForGood (store : Store) (room : Nat) :
    DecidablePred (store.FailsForGood room) := fun x =>
  match room with
  | 0 => inferInstanceAs (Decidable x.RecallsFailure)
  | room + 1 =>
      have := store.decidableFailsForGood room
      inferInstanceAs (Decidable (x.RecallsFailure ∨ x.Undecided ∧ _))

end Decidable

theorem Outcome.exists_failure {o : Outcome} (h : o ≠ .success) : ∃ f, o = .failure f := by
  cases o with
  | success => exact absurd rfl h
  | failure f => exact ⟨f, rfl⟩

section Reasons

variable {store : Store} {room : Nat}

private theorem Goal.reason_of_failsForGood
    (H : ∀ x : Call Kept, x.progress.kept.memo.Definite → store.FailsForGood room x →
      (x.answer (check store room)).1 ≠ .success ∧ ¬(x.answer (check store room)).1.TooDeep)
    {g : Goal} (hg : g.GivesReason) {A : Assumptions} {path : Path} {σ : Progress Kept}
    (hσ : σ.kept.memo.Definite)
    (h : g.FailsForGood (check store room) (store.FailsForGood room) A path σ) :
    (g.solve (check store room) A path σ).1 ≠ .success ∧
      ¬(g.solve (check store room) A path σ).1.TooDeep := by
  induction g generalizing A path σ with
  | trivial => exact h.elim
  | impossible reason => exact ⟨nofun, hg⟩
  | nested c => exact H _ hσ h
  | both g k ihg ihk =>
      have hnext : (g.solve (check store room) A path σ).2.kept.memo.Definite :=
        (solve_countsDepth check_countsDepth hg.1 A path σ hσ).definite
      rcases h with h | ⟨hsuccess, h⟩
      · have hfirst := ihg hg.1 hσ h
        obtain ⟨f, hf⟩ := Outcome.exists_failure hfirst.1
        rwa [solve_both_of_failure hf]
      · rw [solve_both_of_success hsuccess]
        exact ihk hg.2 hnext h
  | either g k ihg ihk =>
      have hnext : (g.solve (check store room) A path σ).2.kept.memo.Definite :=
        (solve_countsDepth check_countsDepth hg.1 A path σ hσ).definite
      have hfirst := ihg hg.1 hσ h.1
      have hsecond := ihk hg.2 hnext h.2
      obtain ⟨f, hf⟩ := Outcome.exists_failure hfirst.1
      rw [solve_either_of_failure hf]
      dsimp only
      rw [if_neg hsecond.1, ← hf]
      exact hfirst
  | within step g ih => exact ih hg hσ h
  | parameters method g ih =>
      have hbody := ih hg hσ h
      rw [solve]
      refine ⟨mt Outcome.mapFailure_eq_success_iff.mp hbody.1, ?_⟩
      exact mt (Outcome.tooDeep_asParameter method _).mp hbody.2
  | fresh sub sup body ih => exact ih _ _ (hg _ _) hσ h

theorem Call.reason_of_failsForGood {x : Call Kept} (hmemo : x.progress.kept.memo.Definite)
    (h : store.FailsForGood room x) :
    (x.answer (check store room)).1 ≠ .success ∧ ¬(x.answer (check store room)).1.TooDeep := by
  have hrecalls : ∀ {room} {x : Call Kept}, x.progress.kept.memo.Definite → x.RecallsFailure →
      (x.answer (check store room)).1 ≠ .success ∧ ¬(x.answer (check store room)).1.TooDeep := by
    rintro room x hx ⟨f, hf⟩
    rw [Call.answer, check_of_memo hf]
    refine ⟨fun hsuccess => ?_, hx x.constraint (.failure f) hf⟩
    cases hsuccess
  induction room generalizing x with
  | zero => exact hrecalls hmemo h
  | succ room ih =>
      rcases h with h | ⟨hx, h⟩
      · exact hrecalls hmemo h
      · rw [hx.answer_succ]
        exact Goal.reason_of_failsForGood (fun y hy => ih hy) (store.goal_givesReason x.constraint)
          hmemo h

end Reasons

section Hits

variable {store : Store} {room : Nat}

private theorem Goal.failsForGood_of_hits
    (H : ∀ x : Call Kept, (x.answer (check store room)).1 ≠ .success →
      (x.answer (check store room)).2.kept.ceilingHits = x.progress.kept.ceilingHits →
        store.FailsForGood room x)
    {g : Goal} {A : Assumptions} {path : Path} {σ : Progress Kept}
    (hfails : (g.solve (check store room) A path σ).1 ≠ .success)
    (hhits : (g.solve (check store room) A path σ).2.kept.ceilingHits = σ.kept.ceilingHits) :
    g.FailsForGood (check store room) (store.FailsForGood room) A path σ := by
  have hle : ∀ (g : Goal) A path (σ : Progress Kept), σ.kept.ceilingHits ≤
      (g.solve (check store room) A path σ).2.kept.ceilingHits :=
    fun g A path σ => (solve_check_advances check_advances g A path σ).hits
  induction g generalizing A path σ with
  | trivial => exact absurd rfl hfails
  | impossible reason => exact True.intro
  | nested c => exact H ⟨A, path, c, σ⟩ hfails hhits
  | both g k ihg ihk =>
      rw [solve_both_progress] at hhits
      rw [Ne, solve_both_eq_success_iff, not_and] at hfails
      have hfirst := hle g A path σ
      by_cases hsuccess : (g.solve (check store room) A path σ).1 = .success
      · rw [if_pos hsuccess] at hhits
        have hsecond := hle k A path (g.solve (check store room) A path σ).2
        exact .inr ⟨hsuccess, ihk (hfails hsuccess) (by omega)⟩
      · rw [if_neg hsuccess] at hhits
        exact .inl (ihg hsuccess hhits)
  | either g k ihg ihk =>
      rw [solve_either_progress] at hhits
      rw [Ne, solve_either_eq_success_iff, not_or] at hfails
      rw [if_neg hfails.1] at hhits
      have hfirst := hle g A path σ
      have hsecond := hle k A path (g.solve (check store room) A path σ).2
      exact ⟨ihg hfails.1 (by omega), ihk hfails.2 (by omega)⟩
  | within step g ih => exact ih hfails hhits
  | parameters method g ih =>
      rw [Ne, solve_parameters_eq_success_iff] at hfails
      exact ih hfails hhits
  | fresh sub sup body ih => exact ih _ _ hfails hhits

theorem Call.recallsFailure_of_decided {x : Call Kept} (hx : ¬x.Undecided)
    (hfails : (x.answer (check store room)).1 ≠ .success) : x.RecallsFailure := by
  rcases Call.memo_or_assumed hx with ⟨o, ho⟩ | ⟨hvacant, hmem⟩
  · cases o with
    | success =>
        rw [Call.answer, check_of_memo ho] at hfails
        exact absurd rfl hfails
    | failure f => exact ⟨f, ho⟩
  · rw [Call.answer, check_of_assumed hvacant hmem] at hfails
    exact absurd rfl hfails

theorem Call.failsForGood_of_hits {x : Call Kept}
    (hfails : (x.answer (check store room)).1 ≠ .success)
    (hhits : (x.answer (check store room)).2.kept.ceilingHits = x.progress.kept.ceilingHits) :
    store.FailsForGood room x := by
  induction room generalizing x with
  | zero =>
      by_cases hx : x.Undecided
      · rw [hx.answer_zero] at hhits
        exact absurd hhits (Nat.succ_ne_self _)
      · exact recallsFailure_of_decided hx hfails
  | succ room ih =>
      by_cases hx : x.Undecided
      · rw [hx.ceilingHits_answer] at hhits
        rw [hx.answer_succ] at hfails
        exact .inr ⟨hx, Goal.failsForGood_of_hits (fun y => ih) hfails hhits⟩
      · exact .inl (recallsFailure_of_decided hx hfails)

end Hits

section Refutations

variable {store : Store} {room : Nat}

private theorem Goal.refuted_of_failsForGood
    (H : ∀ (x : Call Kept) vs E, Scope store vs E x.assumed x.progress.supply →
      x.constraint.vars ⊆ vs → FailuresRefuted store E x.progress → store.FailsForGood room x →
        Refuted store x.progress.supply E x.constraint)
    {g : Goal} {vs : List TypeVar} (hg : g.Supported vs) {A : Assumptions} {path : Path}
    {σ : Progress Kept} {E : Assumptions} (hscope : Scope store vs E A σ.supply)
    (hmemo : FailuresRefuted store E σ)
    (h : g.FailsForGood (check store room) (store.FailsForGood room) A path σ) :
    ∃ n, ¬g.Shown (Holds store false n) σ.supply E := by
  induction g generalizing vs A path σ E with
  | trivial => exact h.elim
  | impossible reason => exact ⟨0, id⟩
  | nested c => exact H ⟨A, path, c, σ⟩ vs E hscope (fun v hv => hg.mem_of_mem_vars hv) hmemo h
  | both g k ihg ihk =>
      rcases h with h | ⟨_, h⟩
      · obtain ⟨n, hn⟩ := ihg hg.both_left hscope hmemo h
        exact ⟨n, fun hboth => hn hboth.1⟩
      · obtain ⟨E', hl, hmemo', _⟩ :=
          solve_failsRightly check_failsRightly hg.both_left A path σ hscope hmemo
        obtain ⟨n, hn⟩ := ihk hg.both_right (hscope.later hl) hmemo' h
        rw [← hl.shown_iff hscope.store_above hscope.above hg.both_right] at hn
        exact ⟨n, fun hboth => hn hboth.2⟩
  | either g k ihg ihk =>
      obtain ⟨E', hl, hmemo', _⟩ :=
        solve_failsRightly check_failsRightly hg.either_left A path σ hscope hmemo
      obtain ⟨n₁, hn₁⟩ := ihg hg.either_left hscope hmemo h.1
      obtain ⟨n₂, hn₂⟩ := ihk hg.either_right (hscope.later hl) hmemo' h.2
      rw [← hl.shown_iff hscope.store_above hscope.above hg.either_right] at hn₂
      refine ⟨max n₁ n₂, fun hsome => hsome.elim (fun h₁ => hn₁ ?_) fun h₂ => hn₂ ?_⟩
      · exact h₁.mono_holds (Nat.le_max_left n₁ n₂) (List.Subset.refl E)
      · exact h₂.mono_holds (Nat.le_max_right n₁ n₂) (List.Subset.refl E)
  | within step g ih => exact ih hg.within hscope hmemo h
  | parameters method g ih => exact ih hg.parameters hscope hmemo h
  | fresh sub sup body ih =>
      have hdrawn := drawn_drawAll σ.supply sub sup
      exact ih _ _ (hg.fresh _ _) (hscope.drawn hdrawn)
        (hmemo.later hscope.store_above (hdrawn.later hscope.before)) h

/-- Some number of levels of rules refutes what fails for good. -/
theorem Store.refuted_of_failsForGood {x : Call Kept} {vs : List TypeVar} {E : Assumptions}
    (hscope : Scope store vs E x.assumed x.progress.supply) (hc : x.constraint.vars ⊆ vs)
    (hmemo : FailuresRefuted store E x.progress) (h : store.FailsForGood room x) :
    Refuted store x.progress.supply E x.constraint := by
  induction room generalizing x vs E with
  | zero =>
      obtain ⟨f, hf⟩ := h
      exact (hmemo _ f hf).2
  | succ room ih =>
      rcases h with ⟨f, hf⟩ | ⟨hx, h⟩
      · exact (hmemo _ f hf).2
      · obtain ⟨n, hn⟩ := Goal.refuted_of_failsForGood (fun y vs E hscope hc => ih hscope hc)
          (store.goal_supported x.constraint) (hscope.goal hc) hmemo h
        have hnot : x.constraint ∉ E :=
          hscope.not_mem_later hc hx.notAssumed (.refl hscope.before)
        exact ⟨n + 1, fun hholds => hholds.elim hnot hn⟩

end Refutations

section Limits

variable {store : Store} {supply supply' : FreshSupply} {c : Constraint}

/-- A failure for good has nothing to do with the limit: it does not give that reason, some number of
levels of rules refutes the question, and however much higher the limit of another new checker is, it
fails as well, by the same failure if the first one did not meet its limit at all, and in any case if
it makes good on all that it took to hold. A failure without meeting the limit is one for good. -/
theorem isSubtype_of_failsForGood {maxDepth maxDepth' : Nat} (hle : maxDepth ≤ maxDepth')
    (hs : supply.Above (store.vars ++ c.vars)) (hs' : supply'.Above (store.vars ++ c.vars)) :
    let k : Checker := { maxDepth }
    let k' : Checker := { maxDepth := maxDepth' }
    let r := k.isSubtype store supply c.sub c.sup
    let r' := k'.isSubtype store supply' c.sub c.sup
    (store.FailsForGood maxDepth (k.call supply [] [] c) →
      (r.1 ≠ .success ∧ ¬r.1.TooDeep) ∧
        (∃ n, ∀ s : FreshSupply, s.Above store.vars → s.Above c.vars → ¬HoldsTo store s n c) ∧
        (k'.MakesGood store supply' [c] → r'.1 ≠ .success)) ∧
    (r.1 ≠ .success → r.2.1.kept.ceilingHits = 0 →
      store.FailsForGood maxDepth (k.call supply [] [] c) ∧
        r'.1 = r.1.relabel (supply.counterpart supply')) := by
  intro k k' r r'
  have hstore : supply.Above store.vars := fun v hv => hs v (List.mem_append_left _ hv)
  have hc : supply.Above c.vars := fun v hv => hs v (List.mem_append_right _ hv)
  have hstore' : supply'.Above store.vars := fun v hv => hs' v (List.mem_append_left _ hv)
  have hc' : supply'.Above c.vars := fun v hv => hs' v (List.mem_append_right _ hv)
  constructor
  · intro hgood
    have hnew : FailuresRefuted store [] ⟨supply, {}⟩ := fun d f hd => nomatch hd
    have hscope : Scope store (store.vars ++ c.vars) [] [] supply :=
      ⟨List.subset_append_left _ _, hs, by simp, by simp⟩
    have hrefuted := Store.refuted_of_failsForGood (x := k.call supply [] [] c) hscope
      (List.subset_append_right _ _) hnew hgood
    obtain ⟨n, hn⟩ := hrefuted.exists_not_holdsTo hstore hc
    refine ⟨Call.reason_of_failsForGood Memo.definite_empty hgood, ⟨n, hn⟩, fun hmakes hsuccess => ?_⟩
    have hone : ∀ d ∈ ([] : List Constraint) ++ [c], supply'.Above d.vars := by simpa using hc'
    exact hn supply' hstore' hc' (holdsTo_of_makesGood hstore' hone hmakes hsuccess n)
  · intro hfails hhits
    refine ⟨Call.failsForGood_of_hits hfails hhits, ?_⟩
    have hmore : check store maxDepth' [] [] c ⟨supply, {}⟩ = check store maxDepth [] [] c ⟨supply, {}⟩ :=
      Call.answer_of_le (x := k.call supply [] [] c) hhits hle
    have halike : store.RunsAlike maxDepth' c supply supply' := store.runsAlike hs hs'
    have hout := halike.outcome
    rw [hmore] at hout
    exact hout

/-- Three interfaces. The first has a method `4` that returns itself or the third, and a method `5` that
returns nil; the second wants the third of one and a truth value of the other; the third has a method
`4` that returns nil. -/
def lopsided : Store where
  templates := [
    (.interface, { name := ⟨1⟩, methods := [
      ⟨⟨4⟩, [{ result := .union [.name ⟨1⟩ .interface [], .name ⟨3⟩ .interface []] }]⟩,
      ⟨⟨5⟩, [{ result := .nil }]⟩] }),
    (.interface, { name := ⟨2⟩, methods := [
      ⟨⟨4⟩, [{ result := .name ⟨3⟩ .interface [] }]⟩, ⟨⟨5⟩, [{ result := .bool }]⟩] }),
    (.interface, { name := ⟨3⟩, methods := [⟨⟨4⟩, [{ result := .nil }]⟩] })]

/-- The limit is met on the way, where it does no harm: the union gets through by its other member, and
the method that fails then would do so with any limit. -/
theorem isSubtype_of_failsForGood_lopsided :
    let c : Constraint := ⟨.name ⟨1⟩ .interface [], .name ⟨2⟩ .interface []⟩
    let r := ({ maxDepth := 3 } : Checker).isSubtype lopsided {} c.sub c.sup
    let r' := ({ maxDepth := 9 } : Checker).isSubtype lopsided {} c.sub c.sup
    r.2.1.kept.ceilingHits ≠ 0 ∧ r.1 ≠ .success ∧ r'.1 ≠ .success := by
  intro c r r'
  have hgood : lopsided.FailsForGood 3 (({ maxDepth := 3 } : Checker).call {} [] [] c) := by
    decide +kernel
  have habove : ({} : FreshSupply).Above (lopsided.vars ++ c.vars) := by decide +kernel
  have hmore := (isSubtype_of_failsForGood (by decide : 3 ≤ 9) habove habove).1 hgood
  exact ⟨by decide +kernel, hmore.1.1, hmore.2.2 (by decide +kernel)⟩

/-- Three interfaces with a method `4`, which returns the third or the second, the second, and the first
in this order, and a method `5` that the first lacks. -/
def relapsing : Store where
  templates := [
    (.interface, { name := ⟨1⟩, methods := [
      ⟨⟨4⟩, [{ result := .union [crossedAt 3, crossedAt 2] }]⟩] }),
    (.interface, { name := ⟨2⟩, methods := [⟨⟨4⟩, [{ result := crossedAt 2 }]⟩,
      ⟨⟨5⟩, [{ result := .nil }]⟩] }),
    (.interface, { name := ⟨3⟩, methods := [⟨⟨4⟩, [{ result := crossedAt 1 }]⟩,
      ⟨⟨5⟩, [{ result := .nil }]⟩] })]

-- with more room the third is kept as a success while the first is taken to hold, which then fails
example :
    let c : Constraint := ⟨.union [crossedAt 1, crossedAt 3], crossedAt 2⟩
    relapsing.FailsForGood 4 (({ maxDepth := 4 } : Checker).call {} [] [] c) ∧
      (({ maxDepth := 5 } : Checker).isSubtype relapsing {} c.sub c.sup).1 = .success ∧
      ¬({ maxDepth := 5 } : Checker).MakesGood relapsing {} [c] := by
  decide +kernel

/-- Two interfaces of the same kind. -/
def alikes : Store where
  templates := [1, 2].map fun n => (.interface,
    { name := ⟨n⟩, methods := [⟨⟨3⟩, [{ result := .nil }]⟩] })

/-- The first member of a union fails for good, so its reason is reported. The other one just meets the
limit, and a higher one lets it through. -/
theorem not_isSubtype_of_failsForGood :
    let c : Constraint := ⟨.union [.bool, .name ⟨1⟩ .interface []], .name ⟨2⟩ .interface []⟩
    let r := ({ maxDepth := 2 } : Checker).isSubtype alikes {} c.sub c.sup
    let r' := ({ maxDepth := 3 } : Checker).isSubtype alikes {} c.sub c.sup
    r.1 = .failure ⟨.unknownPair ⟨.bool, .name ⟨2⟩ .interface []⟩,
        [.types c, .types ⟨.bool, .name ⟨2⟩ .interface []⟩]⟩ ∧
      ¬alikes.FailsForGood 2 (({ maxDepth := 2 } : Checker).call {} [] [] c) ∧ r'.1 = .success := by
  decide +kernel

end Limits

end Subtyping
