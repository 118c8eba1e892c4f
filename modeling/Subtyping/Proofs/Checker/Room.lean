import Subtyping.Proofs.Checker.Replay

/-!
# Room to spare

A check that does not meet its limit goes the same way with more room (`Call.answer_of_le`), and one
that does keeps nothing for its constraint (`Call.vacant_of_hits`). So the limit had no part in what is
in memory.
-/

namespace Subtyping

variable {store : Store} {room room' : Nat} {x y z : Call Kept}

theorem Store.Makes.ceilingHits_answer (h : store.Makes room x y)
    (hhits : (store.opened room x).2.kept.ceilingHits = x.progress.kept.ceilingHits) :
    (y.answer (check store room)).2.kept.ceilingHits = y.progress.kept.ceilingHits := by
  -- hits are never taken back, so between two states without new ones there are none
  have hbefore := h.advances.1.hits
  have hduring : y.progress.kept.ceilingHits ≤ (y.answer (check store room)).2.kept.ceilingHits :=
    y.answer_advances.hits
  have hafter := h.advances.2.hits
  omega

/-- A call that does not meet the limit is answered the same with more room. -/
theorem Call.answer_of_le
    (hhits : (x.answer (check store room)).2.kept.ceilingHits = x.progress.kept.ceilingHits)
    (hle : room ≤ room') : x.answer (check store room') = x.answer (check store room) := by
  induction room generalizing x room' with
  | zero =>
      by_cases hx : x.Undecided
      · rw [hx.answer_zero] at hhits
        exact absurd hhits (Nat.succ_ne_self _)
      · exact Call.answer_eq_of_decided hx room' 0
  | succ room ih =>
      by_cases hx : x.Undecided
      · obtain ⟨room', rfl⟩ : ∃ r, room' = r + 1 := ⟨room' - 1, by omega⟩
        rw [hx.ceilingHits_answer] at hhits
        -- no nested call meets the limit either, so each is answered the same with more room
        have hopened : store.opened room' x = store.opened room x :=
          Goal.solve_congr fun y hy =>
            ih (Store.Makes.ceilingHits_answer hy hhits) (Nat.le_of_succ_le_succ hle)
        rw [hx.answer_succ, hx.answer_succ, hopened]
      · exact Call.answer_eq_of_decided hx room' (room + 1)

theorem Store.Within.of_le {left : Nat} (h : store.Within room x left z)
    (hhits : (x.answer (check store room)).2.kept.ceilingHits = x.progress.kept.ceilingHits)
    (hle : room ≤ room') : store.Within room' x (left + (room' - room)) z := by
  induction h generalizing room' with
  | self room x =>
      rw [Nat.add_sub_cancel' hle]
      exact .self room' x
  | @deeper room left x y z hx hy hz ih =>
      obtain ⟨room', rfl⟩ : ∃ r, room' = r + 1 := ⟨room' - 1, by omega⟩
      have hle' := Nat.le_of_succ_le_succ hle
      rw [hx.ceilingHits_answer] at hhits
      have hy' : store.Makes room' x y :=
        Goal.Calls.congr (fun y hy => Call.answer_of_le (Store.Makes.ceilingHits_answer hy hhits) hle')
          hy
      rw [Nat.succ_sub_succ]
      exact .deeper hx hy' (ih (hy.ceilingHits_answer hhits) hle')

theorem Store.Within.ceilingHits_lt (h : store.Within room x 0 z) (hz : z.Undecided) :
    x.progress.kept.ceilingHits < (x.answer (check store room)).2.kept.ceilingHits := by
  have hbefore := h.advances.1.hits
  have hafter := h.advances.2.hits
  rw [hz.answer_zero] at hafter
  exact Nat.lt_of_lt_of_le (Nat.lt_succ_of_le hbefore) hafter

theorem Call.vacant_of_hits
    (hhits : (x.answer (check store room)).2.kept.ceilingHits ≠ x.progress.kept.ceilingHits) :
    (x.answer (check store room)).2.kept.memo.get? x.constraint = none := by
  have hx : x.Undecided := by
    refine Decidable.byContradiction fun hx => hhits ?_
    rw [Call.answer_of_decided hx]
  cases room with
  | zero =>
      rw [hx.answer_zero]
      exact hx.vacant
  | succ room =>
      rw [hx.ceilingHits_answer] at hhits
      rw [hx.answer_succ, if_neg hhits]
      exact vacant_of_solve hx.vacant (store.goal x.constraint)

namespace Checker

/-- A check that does not meet the limit gives the same with a higher limit or from a smaller depth:
the same calls, the same outcome, the same memory, the same variables. A check in whose course the
limit is met keeps nothing for its constraint. So whatever was asked before, each outcome in memory was
put there by a call that is answered the same however much room it has beyond what it had. -/
theorem checkAt_of_le :
    (∀ (k : Checker) (store : Store) (supply : FreshSupply) (A : Assumptions) (path : Path)
      (c : Constraint) (maxDepth depth : Nat), k.maxDepth ≤ maxDepth → depth ≤ k.depth →
      let r := k.checkAt store supply A path c
      r.2.1.kept.ceilingHits = k.kept.ceilingHits →
        { k with maxDepth, depth }.checkAt store supply A path c =
            (r.1, { r.2.1 with maxDepth, depth }, r.2.2) ∧
          ∀ left z, store.Within (k.maxDepth - k.depth) (k.call supply A path c) left z →
            ∃ left', store.Within (maxDepth - depth) (k.call supply A path c) left' z) ∧
    (∀ (k : Checker) (store : Store) (supply : FreshSupply) (A : Assumptions) (path : Path)
      (c : Constraint) (z : Call Kept),
      store.Within (k.maxDepth - k.depth) (k.call supply A path c) 0 z → z.Undecided →
        (k.checkAt store supply A path c).2.1.kept.memo.get? c = none) ∧
    ∀ kept : Kept, kept.Reachable → ∀ c o, kept.memo.get? c = some o →
      ∃ (store : Store) (room : Nat) (x : Call Kept), x.progress.kept.Reachable ∧
        x.constraint = c ∧ store.Finds room x o ∧
        ∀ room', room ≤ room' → x.answer (check store room') = x.answer (check store room) := by
  refine ⟨?_, ?_, ?_⟩
  · intro k store supply A path c maxDepth depth hmax hdepth r hhits
    have hroom : k.maxDepth - k.depth ≤ maxDepth - depth := by omega
    have hcheck : check store (maxDepth - depth) A path c ⟨supply, k.kept⟩ =
        check store (k.maxDepth - k.depth) A path c ⟨supply, k.kept⟩ :=
      Call.answer_of_le (x := k.call supply A path c) hhits hroom
    refine ⟨?_, fun left z hz => ⟨_, hz.of_le hhits hroom⟩⟩
    rw [checkAt, hcheck]
    rfl
  · intro k store supply A path c z hz hundecided
    have hhits := Nat.ne_of_gt (hz.ceilingHits_lt hundecided)
    exact Call.vacant_of_hits (x := k.call supply A path c) hhits
  · intro kept hkept c o hc
    obtain ⟨store, room, x, hx, rfl, hfinds⟩ := hkept.founded c o hc
    exact ⟨store, room, x, hx, rfl, hfinds, fun room' hle => Call.answer_of_le hfinds.clear hle⟩

/-- There is room for the parameters of the method below the two interfaces, or there is not. -/
theorem checkAt_of_le_takers :
    let c : Constraint := ⟨.name ⟨1⟩ .interface [], .name ⟨2⟩ .interface []⟩
    let k : Checker := { maxDepth := 5, depth := 3 }
    let r := k.checkAt takers {} [] [] c
    r.2.1.kept.ceilingHits = 0 ∧
      { k with maxDepth := 7, depth := 1 }.checkAt takers {} [] [] c =
        (r.1, { r.2.1 with maxDepth := 7, depth := 1 }, r.2.2) ∧
      (({ maxDepth := 1 } : Checker).checkAt takers {} [] [] c).2.1.kept.memo.get? c = none ∧
      ∃ (store : Store) (room : Nat) (x : Call Kept), x.progress.kept.Reachable ∧
        x.constraint = ⟨.bool, .nil⟩ ∧ store.Finds room x (.failure ⟨.unknownPair ⟨.bool, .nil⟩,
          [.types ⟨.bool, .nil⟩]⟩) ∧
        ∀ room', room ≤ room' → x.answer (check store room') = x.answer (check store room) := by
  intro c k r
  have hhits : r.2.1.kept.ceilingHits = 0 := by decide +kernel
  have hmore := (checkAt_of_le.1 k takers {} [] [] c 7 1 (by decide) (by decide) hhits).1
  obtain ⟨z, hz, hundecided⟩ :
      ∃ z, takers.Makes 0 (({ maxDepth := 1 } : Checker).call {} [] [] c) z ∧ z.Undecided :=
    ⟨_, .inl (.inl (.inl (.inl rfl))), by decide, by decide⟩
  have hwithin := Store.Within.deeper (by decide) hz (.self 0 z)
  have hvacant := checkAt_of_le.2.1 { maxDepth := 1 } takers {} [] [] c z hwithin hundecided
  have hmemo : r.2.1.kept.memo.get? ⟨.bool, .nil⟩ =
      some (.failure ⟨.unknownPair ⟨.bool, .nil⟩, [.types ⟨.bool, .nil⟩]⟩) := by
    decide +kernel
  have hreachable : r.2.1.kept.Reachable := reachable_checkAt (k := k) .new takers {} [] [] c
  exact ⟨hhits, hmore, hvacant, checkAt_of_le.2.2 _ hreachable _ _ hmemo⟩

end Checker

end Subtyping
