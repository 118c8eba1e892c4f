import Subtyping.Proofs.Checker.Memory
import Subtyping.Proofs.Checker.Walk

/-!
# Answers from memory

A failure that is answered from memory shows the path to where it is asked now, and from there on the
path that it was found with. Nothing else of where a check is asked, then or now, has any influence
(`Checker.checkAt_relative`).
-/

namespace Subtyping

namespace Checker

theorem checkAt_eq_after (k : Checker) (store : Store) (supply : FreshSupply) (A : Assumptions)
    (path : Path) (c : Constraint) :
    k.checkAt store supply A path c =
      ((k.checkAt store supply A [] c).1.mapFailure (Failure.after path),
        (k.checkAt store supply A [] c).2) := by
  have h : check store (k.maxDepth - k.depth) A path c ⟨supply, k.kept⟩ = _ :=
    check_eq_after A path c ⟨supply, k.kept⟩
  rw [checkAt, h]
  rfl

theorem checkAt_of_memo {k : Checker} {c : Constraint} {o : Outcome}
    (h : k.kept.memo.get? c = some o) (store : Store) (supply : FreshSupply) (A : Assumptions)
    (path : Path) :
    k.checkAt store supply A path c = (o.mapFailure (Failure.after path), k, supply) := by
  rw [checkAt, check_of_memo h]

end Checker

theorem Kept.Reachable.exists_of_failure {kept : Kept} (h : kept.Reachable) {c : Constraint}
    {f : Failure} (hc : kept.memo.get? c = some (.failure f)) :
    (∃ rest, f.path = .types c :: rest) ∧
      ∃ (store : Store) (room : Nat) (x : Call Kept), x.progress.kept.Reachable ∧
        x.constraint = c ∧ x.progress.kept.memo.get? c = none ∧
        (x.answer (check store room)).1 = .failure ⟨f.reason, x.path ++ f.path⟩ ∧
        (x.answer (check store room)).2.kept.memo.get? c = some (.failure f) := by
  obtain ⟨store, room, x, hx, rfl, hfinds⟩ := h.founded c _ hc
  obtain ⟨room', _, hfound⟩ := hfinds.eq_found
  exact ⟨Store.exists_of_found_eq_failure hfound.symm, store, room, x, hx, rfl, hfinds.vacant,
    hfinds.found, hfinds.remembered⟩

/-- Wherever a constraint is checked, the outcome is the same, except that the path of a failure has
the place in front; the checker and the supply end up the same, and one who walks through the check is
at the place again in the end. Whatever was asked before, a failure in memory starts at its
constraint, and the answer to it is the place where it is asked followed by the path with which it was
found at first. -/
theorem Checker.checkAt_relative :
    (∀ (k : Checker) (store : Store) (supply : FreshSupply) (A : Assumptions) (c : Constraint),
      let r := fun path => k.checkAt store supply A path c
      ((∀ path, (r path).1 = .success) ∨
        ∃ reason suffix, ∀ path, (r path).1 = .failure ⟨reason, path ++ suffix⟩) ∧
      (∀ path path', (r path).2 = (r path').2) ∧
      ∀ path o w, Walks store (.nested c) A ⟨k, supply, path⟩ o w ↔
        o = (r path).1 ∧ w = ⟨(r path).2.1, (r path).2.2, path⟩) ∧
    ∀ kept : Kept, kept.Reachable → ∀ c f, kept.memo.get? c = some (.failure f) →
      (∃ rest, f.path = .types c :: rest) ∧
      (∃ (store : Store) (room : Nat) (x : Call Kept), x.progress.kept.Reachable ∧
        x.constraint = c ∧ x.progress.kept.memo.get? c = none ∧
        (x.answer (check store room)).1 = .failure ⟨f.reason, x.path ++ f.path⟩ ∧
        (x.answer (check store room)).2.kept.memo.get? c = some (.failure f)) ∧
      ∀ (k : Checker) (store : Store) (supply : FreshSupply) (A : Assumptions) (path : Path),
        k.kept = kept →
          k.checkAt store supply A path c = (.failure ⟨f.reason, path ++ f.path⟩, k, supply) := by
  constructor
  · intro k store supply A c r
    have hafter : ∀ path, r path = ((r []).1.mapFailure (Failure.after path), (r []).2) :=
      fun path => k.checkAt_eq_after store supply A path c
    refine ⟨?_, fun path path' => ?_, fun path o w => walks_iff_checkAt⟩
    · cases hr : (r []).1 with
      | success =>
          refine .inl fun path => ?_
          rw [hafter, hr]
          rfl
      | failure f =>
          refine .inr ⟨f.reason, f.path, fun path => ?_⟩
          rw [hafter, hr]
          rfl
    · rw [hafter path, hafter path']
  · intro kept hkept c f hc
    obtain ⟨hstart, hcall⟩ := hkept.exists_of_failure hc
    refine ⟨hstart, hcall, fun k store supply A path hk => ?_⟩
    subst hk
    exact checkAt_of_memo hc store supply A path

/-- Two interfaces with one method, which takes nothing but nil in one and a truth value in the
other. -/
def takers : Store where
  templates := [(1, Ty.nil), (2, Ty.bool)].map fun e => (.interface,
    { name := ⟨e.1⟩, methods := [⟨⟨3⟩, [{ params := { required := [e.2] }, result := .void }]⟩] })

/-- The parameters do not fit, which is found on the way through the method and shown again at another
place. -/
theorem Checker.checkAt_relative_takers :
    let k := (({} : Checker).isSubtype takers {} (.name ⟨1⟩ .interface [])
      (.name ⟨2⟩ .interface [])).2.1
    let c : Constraint := ⟨.bool, .nil⟩
    k.kept.Reachable ∧
      k.kept.memo.get? c = some (.failure ⟨.unknownPair c, [.types c]⟩) ∧
      k.checkAt takers {} [] [.method ⟨4⟩] c =
        (.failure ⟨.unknownPair c, [.method ⟨4⟩, .types c]⟩, k, {}) := by
  intro k c
  have hreachable : k.kept.Reachable := reachable_checkAt .new takers {} [] [] _
  have hmemo : k.kept.memo.get? c = some (.failure ⟨.unknownPair c, [.types c]⟩) := by
    decide +kernel
  have hreplay := (checkAt_relative.2 k.kept hreachable c _ hmemo).2.2
  exact ⟨hreachable, hmemo, hreplay k takers {} [] [.method ⟨4⟩] rfl⟩

end Subtyping
