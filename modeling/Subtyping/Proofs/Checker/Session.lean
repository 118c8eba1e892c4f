import Subtyping.Proofs.Checker.Failure
import Subtyping.Proofs.Checker.Replay

/-!
# Sessions

One checker may be asked many questions. Whatever they were, a failure that did not meet the depth
limit is a refutation, and so is every failure in memory.
-/

namespace Subtyping

namespace Checker

/-- A checker and a supply after some questions. -/
def askAll (k : Checker) (store : Store) (supply : FreshSupply) :
    List Constraint → Checker × FreshSupply
  | [] => (k, supply)
  | c :: cs =>
      let r := k.isSubtype store supply c.sub c.sup
      r.2.1.askAll store r.2.2 cs

/-- Each question is about variables that were there when it was asked. -/
def Admits (k : Checker) (store : Store) (supply : FreshSupply) : List Constraint → Prop
  | [] => True
  | c :: cs =>
      let r := k.isSubtype store supply c.sub c.sup
      supply.Above c.vars ∧ r.2.1.Admits store r.2.2 cs

theorem admits_append {k : Checker} {store : Store} {supply : FreshSupply} {cs ds : List Constraint}
    (h : k.Admits store supply (cs ++ ds)) :
    k.Admits store supply cs ∧
      (k.askAll store supply cs).1.Admits store (k.askAll store supply cs).2 ds := by
  induction cs generalizing k supply with
  | nil => exact ⟨trivial, h⟩
  | cons c cs ih =>
      obtain ⟨hcs, hds⟩ := ih h.2
      exact ⟨⟨h.1, hcs⟩, hds⟩

theorem isSubtype_advances (k : Checker) (store : Store) (supply : FreshSupply) (c : Constraint) :
    Advances [] ⟨supply, k.kept⟩ ⟨(k.isSubtype store supply c.sub c.sup).2.2,
      (k.isSubtype store supply c.sub c.sup).2.1.kept⟩ :=
  check_advances [] [] c ⟨supply, k.kept⟩

theorem admits_of_above {k : Checker} {store : Store} {supply : FreshSupply} {cs : List Constraint}
    (h : ∀ c ∈ cs, supply.Above c.vars) : k.Admits store supply cs := by
  induction cs generalizing k supply with
  | nil => trivial
  | cons c cs ih =>
      obtain ⟨hc, hcs⟩ := List.forall_mem_cons.mp h
      exact ⟨hc, ih fun d hd => (hcs d hd).of_le (k.isSubtype_advances store supply c).supply⟩

end Checker

variable {store : Store} {supply : FreshSupply} {k : Checker} {c : Constraint}

theorem holds_iff_of_above {n : Nat} {s s' : FreshSupply} (hstore : s.Above store.vars)
    (hstore' : s'.Above store.vars) (hc : s.Above c.vars) (hc' : s'.Above c.vars) :
    Holds store false n s [] c ↔ Holds store false n s' [] c := by
  have hnone : ∀ s : FreshSupply, ∀ e ∈ ([] : Assumptions), s.Above e.vars :=
    fun s e he => absurd he List.not_mem_nil
  rcases Nat.le_total s.next s'.next with hle | hle
  · exact (Later.of_le (hnone s) hle).holds_iff hstore hc
  · exact ((Later.of_le (hnone s') hle).holds_iff hstore' hc').symm

theorem Refuted.exists_not_holdsTo {s : FreshSupply} {E : Assumptions} (h : Refuted store s E c)
    (hstore : s.Above store.vars) (hc : s.Above c.vars) :
    ∃ n, ∀ s' : FreshSupply, s'.Above store.vars → s'.Above c.vars → ¬HoldsTo store s' n c := by
  obtain ⟨n, hn⟩ := h
  refine ⟨n, fun s' hstore' hc' hholds => hn ?_⟩
  rw [holdsTo_iff hstore' hc', holds_iff_of_above hstore' hstore hc' hc] at hholds
  exact hholds.mono (Nat.le_refl n) (List.nil_subset E)

theorem isSubtype_failsRightly (hstore : supply.Above store.vars) (hc : supply.Above c.vars)
    (hmemo : FailuresRefuted store [] ⟨supply, k.kept⟩) :
    let r := k.isSubtype store supply c.sub c.sup
    supply.next ≤ r.2.2.next ∧ FailuresRefuted store [] ⟨r.2.2, r.2.1.kept⟩ ∧
      (r.1 ≠ .success → r.2.1.kept.ceilingHits = k.kept.ceilingHits →
        Refuted store r.2.2 [] c) := by
  -- a question may be about any variables, so what was assumed for earlier ones is forgotten
  have hforget : ∀ s E d, Refuted store s E d → Refuted store s [] d := by
    rintro s E d ⟨n, hn⟩
    exact ⟨n, fun hholds => hn (hholds.mono (Nat.le_refl n) (List.nil_subset E))⟩
  have hscope : Scope store (store.vars ++ c.vars) [] [] supply :=
    ⟨List.subset_append_left _ _, hstore.append hc, by simp, by simp⟩
  have hright : FailsRightly store [] ⟨supply, k.kept⟩
      (check store (k.maxDepth - k.depth) [] [] c ⟨supply, k.kept⟩) fun s E => Refuted store s E c :=
    check_failsRightly [] [] c _ _ [] hscope (List.subset_append_right _ _) hmemo
  obtain ⟨E, hl, hmemo', hfail⟩ := hright
  refine ⟨hl.le, fun d f hd => ?_, fun hne hsame => hforget _ E c (hfail hne hsame)⟩
  obtain ⟨habove, hrefuted⟩ := hmemo' d f hd
  exact ⟨habove, hforget _ E d hrefuted⟩

theorem askAll_failuresRefuted {cs : List Constraint} (hstore : supply.Above store.vars)
    (hcs : k.Admits store supply cs) (hmemo : FailuresRefuted store [] ⟨supply, k.kept⟩) :
    let s := k.askAll store supply cs
    s.2.Above store.vars ∧ FailuresRefuted store [] ⟨s.2, s.1.kept⟩ := by
  induction cs generalizing k supply with
  | nil => exact ⟨hstore, hmemo⟩
  | cons c cs ih =>
      obtain ⟨hle, hmemo', _⟩ := isSubtype_failsRightly hstore hcs.1 hmemo
      exact ih (hstore.of_le hle) hcs.2 hmemo'

theorem askAll_isSubtype_failsRightly {maxDepth : Nat} {asked : List Constraint}
    (hstore : supply.Above store.vars)
    (hasked : ({ maxDepth } : Checker).Admits store supply (asked ++ [c])) :
    let s := ({ maxDepth } : Checker).askAll store supply asked
    let r := s.1.isSubtype store s.2 c.sub c.sup
    r.2.2.Above store.vars ∧ r.2.2.Above c.vars ∧ FailuresRefuted store [] ⟨r.2.2, r.2.1.kept⟩ ∧
      (r.1 ≠ .success → r.2.1.kept.ceilingHits = s.1.kept.ceilingHits →
        Refuted store r.2.2 [] c) := by
  obtain ⟨hbefore, hlast⟩ := Checker.admits_append hasked
  have hnew : FailuresRefuted store [] ⟨supply, ({ maxDepth } : Checker).kept⟩ :=
    fun d f hd => absurd hd.symm (Option.some_ne_none _)
  obtain ⟨hstore', hmemo⟩ := askAll_failuresRefuted hstore hbefore hnew
  obtain ⟨hle, hmemo', hfail⟩ := isSubtype_failsRightly hstore' hlast.1 hmemo
  exact ⟨hstore'.of_le hle, hlast.1.of_le hle, hmemo', hfail⟩

/-- Whatever a new checker was asked before, and whatever it answered, when it fails at a question
without meeting the depth limit, then some number of levels of rules refutes the question, and for
every failure that it then has in memory some number of levels refutes the constraint. -/
theorem refuted_of_isSubtype {maxDepth : Nat} {asked : List Constraint}
    (hstore : supply.Above store.vars)
    (hasked : ({ maxDepth } : Checker).Admits store supply (asked ++ [c])) :
    let s := ({ maxDepth } : Checker).askAll store supply asked
    let r := s.1.isSubtype store s.2 c.sub c.sup
    (r.1 ≠ .success → r.2.1.kept.ceilingHits = s.1.kept.ceilingHits →
      ∃ n, ∀ s' : FreshSupply, s'.Above store.vars → s'.Above c.vars → ¬HoldsTo store s' n c) ∧
    ∀ d f, r.2.1.kept.memo.get? d = some (.failure f) →
      ∃ n, ∀ s' : FreshSupply, s'.Above store.vars → s'.Above d.vars → ¬HoldsTo store s' n d := by
  obtain ⟨hstore', hc, hmemo, hfail⟩ := askAll_isSubtype_failsRightly hstore hasked
  refine ⟨fun hne hsame => ?_, fun d f hd => ?_⟩
  · exact (hfail hne hsame).exists_not_holdsTo hstore' hc
  · obtain ⟨habove, hrefuted⟩ := hmemo d f hd
    exact hrefuted.exists_not_holdsTo hstore' habove

/-- A failure is found below the method of two interfaces and shown again below a union. The question
about the union is refuted, and so is the one about the interfaces. -/
theorem refuted_of_isSubtype_again :
    let b : Constraint := ⟨.name ⟨1⟩ .interface [], .name ⟨2⟩ .interface []⟩
    let c : Constraint := ⟨.bool, .union [.bool, .nil]⟩
    let d : Constraint := ⟨.bool, .nil⟩
    let below := [.types b, .method ⟨3⟩,
      .overloads ⟨3⟩ { params := { required := [.nil] }, result := .void }
        { params := { required := [.bool] }, result := .void },
      .types d]
    let s := ({} : Checker).askAll takers {} [b]
    let r := s.1.isSubtype takers s.2 c.sub c.sup
    s.1.kept.memo.get? d = some (.failure ⟨.unknownPair d, [.types d]⟩) ∧
      r.1 = .failure ⟨.unknownPair d, [.types c, .types d]⟩ ∧
      (∃ n, ∀ s' : FreshSupply, s'.Above takers.vars → s'.Above c.vars →
        ¬HoldsTo takers s' n c) ∧
      r.2.1.kept.memo.get? b = some (.failure ⟨.parameterMismatch ⟨3⟩, below⟩) ∧
      ∃ n, ∀ s' : FreshSupply, s'.Above takers.vars → s'.Above b.vars →
        ¬HoldsTo takers s' n b := by
  intro b c d below s r
  have hfound : s.1.kept.memo.get? d = some (.failure ⟨.unknownPair d, [.types d]⟩) := by
    decide +kernel
  have hreplayed : r.1 = .failure ⟨.unknownPair d, [.types c, .types d]⟩ := by decide +kernel
  have hmemo : r.2.1.kept.memo.get? b = some (.failure ⟨.parameterMismatch ⟨3⟩, below⟩) := by
    decide +kernel
  have hadmits : ({} : Checker).Admits takers {} ([b] ++ [c]) :=
    Checker.admits_of_above (by decide +kernel)
  have hrefuted := refuted_of_isSubtype (by decide +kernel) hadmits
  have hfails : r.1 ≠ .success := by
    rw [hreplayed]
    exact nofun
  exact ⟨hfound, hreplayed, hrefuted.1 hfails (by decide +kernel), hmemo, hrefuted.2 b _ hmemo⟩

end Subtyping
