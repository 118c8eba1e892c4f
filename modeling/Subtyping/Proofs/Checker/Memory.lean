import Subtyping.Proofs.Checker.Relative
import Subtyping.Proofs.Checker.Within

/-!
# Where memory comes from

An outcome gets into memory by one call, which found it when there was none and without meeting the
limit (`Store.Finds`). So it is with every outcome that can ever be in memory, whatever was asked
before (`Kept.Reachable.founded`).
-/

namespace Subtyping

/-- What can be kept: nothing at first, then whatever checks keep, as it is when any call in their
course is made and when it is answered. In between memory may be cleared. -/
inductive Kept.Reachable : Kept → Prop
  | new : Reachable {}
  | cleared {kept : Kept} (h : kept.Reachable) : Reachable { kept with memo := {} }
  | within {store : Store} {room room' : Nat} {x z : Call Kept} (h : x.progress.kept.Reachable)
      (hz : store.Within room x room' z) : z.progress.kept.Reachable
  | answered {store : Store} {room : Nat} {x : Call Kept} (h : x.progress.kept.Reachable) :
      (x.answer (check store room)).2.kept.Reachable

/-- A call puts an outcome for its constraint into memory, where there was none: its own outcome,
seen from the constraint, found without meeting the limit. -/
structure Store.Finds (store : Store) (room : Nat) (x : Call Kept) (o : Outcome) : Prop where
  vacant : x.progress.kept.memo.get? x.constraint = none
  found : (x.answer (check store room)).1 = o.mapFailure (Failure.after x.path)
  clear : (x.answer (check store room)).2.kept.ceilingHits = x.progress.kept.ceilingHits
  remembered : (x.answer (check store room)).2.kept.memo.get? x.constraint = some o

/-- Every outcome in memory was put there by a call. -/
def Kept.Founded (kept : Kept) : Prop :=
  ∀ c o, kept.memo.get? c = some o → ∃ (store : Store) (room : Nat) (x : Call Kept),
    x.progress.kept.Reachable ∧ x.constraint = c ∧ store.Finds room x o

section Calls

variable {store : Store} {room : Nat} {x : Call Kept}

/-- The outcome of the goal of a call, seen from its constraint. -/
def Store.found (store : Store) (room : Nat) (x : Call Kept) : Outcome :=
  ((store.goal x.constraint).solve (check store room) (x.constraint :: x.assumed)
    [.types x.constraint] x.progress).1

theorem Store.opened_fst (store : Store) (room : Nat) (x : Call Kept) :
    (store.opened room x).1 = (store.found room x).mapFailure (Failure.after x.path) := by
  rw [Store.opened, solve_check_append]
  rfl

theorem Store.opened_fst_dropPath (store : Store) (room : Nat) (x : Call Kept) :
    (store.opened room x).1.mapFailure (Failure.dropPath x.path.length) = store.found room x := by
  rw [store.opened_fst, Outcome.mapFailure_mapFailure]
  simp only [Failure.dropPath_after]
  cases store.found room x <;> rfl

theorem Store.exists_of_found_eq_failure {f : Failure} (h : store.found room x = .failure f) :
    ∃ rest, f.path = .types x.constraint :: rest := by
  rw [Store.found, solve_check_eq_after] at h
  generalize (store.goal x.constraint).solve (check store room) (x.constraint :: x.assumed) []
    x.progress = r at h
  rcases r with ⟨_ | f', τ⟩
  · exact nomatch h
  · obtain rfl := Outcome.failure.inj h
    exact ⟨f'.path, rfl⟩

theorem Call.Undecided.finds (h : x.Undecided)
    (hhits : (store.opened room x).2.kept.ceilingHits = x.progress.kept.ceilingHits) :
    store.Finds (room + 1) x (store.found room x) := by
  have hanswer : x.answer (check store (room + 1)) = _ := h.answer_succ
  rw [if_pos hhits, store.opened_fst] at hanswer
  refine ⟨h.vacant, ?_, ?_, ?_⟩
  · rw [hanswer]
  · rw [hanswer]
    exact hhits
  · rw [hanswer, ← store.opened_fst, Progress.remember, store.opened_fst_dropPath,
      Memo.get?_insert, if_pos rfl]

theorem Store.Finds.eq_found {o : Outcome} (h : store.Finds room x o) :
    ∃ room', room = room' + 1 ∧ o = store.found room' x := by
  -- an answer from memory or by an assumption puts nothing into memory
  have hx : x.Undecided := by
    refine Decidable.byContradiction fun hx => ?_
    have hm := h.remembered
    rw [Call.answer_of_decided hx, h.vacant] at hm
    exact nomatch hm
  cases room with
  | zero =>
      have hm := h.remembered
      rw [hx.answer_zero] at hm
      exact absurd (h.vacant.symm.trans hm) (Option.some_ne_none o).symm
  | succ room =>
      refine ⟨room, rfl, ?_⟩
      have hhits : (store.opened room x).2.kept.ceilingHits = x.progress.kept.ceilingHits :=
        hx.ceilingHits_answer.symm.trans h.clear
      exact Option.some.inj (h.remembered.symm.trans (hx.finds hhits).remembered)

theorem check_founded (hx : x.progress.kept.Reachable) (h : x.progress.kept.Founded) :
    (x.answer (check store room)).2.kept.Founded ∧
      ∀ room' z, store.Within room x room' z → z.progress.kept.Founded := by
  have hkeeps : store.Keeps room x fun _ σ => σ.kept.Founded := by
    refine ⟨fun _ _ _ _ h => h, fun _ _ _ h => h, fun _ _ _ _ h => h, fun _ _ h => h, ?_⟩
    intro room' z hz hundecided hhits hgoal d o hd
    rcases Memo.eq_or_get?_of_get?_insert hd with ⟨rfl, rfl⟩ | hd
    · rw [store.opened_fst_dropPath]
      exact ⟨store, room' + 1, z, hx.within hz, rfl, hundecided.finds hhits⟩
    · exact hgoal d o hd
  exact check_keeps hkeeps h

end Calls

/-- Whatever was asked before, every outcome in memory was put there by a call. -/
theorem Kept.Reachable.founded {kept : Kept} (h : kept.Reachable) : kept.Founded := by
  induction h with
  | new => exact fun c o hc => nomatch hc
  | cleared h ih => exact fun c o hc => nomatch hc
  | within h hz ih => exact (check_founded h ih).2 _ _ hz
  | answered h ih => exact (check_founded h ih).1

theorem Checker.reachable_checkAt {k : Checker} (h : k.kept.Reachable) (store : Store)
    (supply : FreshSupply) (A : Assumptions) (path : Path) (c : Constraint) :
    (k.checkAt store supply A path c).2.1.kept.Reachable :=
  Kept.Reachable.answered (x := k.call supply A path c) h

end Subtyping
