import Mathlib.Data.Set.Function
import Subtyping.Proofs.Relabel.Check

/-!
# Checks at another supply

Where the numbers of fresh variables start makes no difference to a check but in the numbers of its
fresh variables: those that one supply gives out stand in the places of those that the other gives
out (`FreshSupply.counterpart`), and as many are given out (`isSubtype_renamed`). Both supplies have to
be above the variables of the store and of the question.
-/

namespace Subtyping

section Undone

variable {ρ ρ' : TypeVar → TypeVar}

theorem Ty.relabel_leftInverse (h : Function.LeftInverse ρ' ρ) :
    Function.LeftInverse (Ty.relabel ρ') (Ty.relabel ρ) := by
  intro t
  rw [Ty.relabel_relabel]
  exact Ty.relabel_eq_self fun v _ => h v

theorem Constraint.relabel_leftInverse (h : Function.LeftInverse ρ' ρ) :
    Function.LeftInverse (Constraint.relabel ρ') (Constraint.relabel ρ) := by
  intro c
  have ht := Ty.relabel_leftInverse h
  rw [relabel, relabel, ht, ht]

theorem Signature.relabel_leftInverse (h : Function.LeftInverse ρ' ρ) :
    Function.LeftInverse (Signature.relabel ρ') (Signature.relabel ρ) := by
  intro m
  have hvs : (m.typeParams.map ρ).map ρ' = m.typeParams := h.list_map m.typeParams
  have htypes : (m.mapTypes (Ty.relabel ρ)).mapTypes (Ty.relabel ρ') = m.mapTypes id := by
    rw [mapTypes_mapTypes]
    exact mapTypes_congr fun t _ => Ty.relabel_leftInverse h t
  calc ((m.relabel ρ).relabel ρ')
      = { (m.mapTypes (Ty.relabel ρ)).mapTypes (Ty.relabel ρ') with
            typeParams := (m.typeParams.map ρ).map ρ' } := rfl
    _ = m := by rw [htypes, hvs, mapTypes_id]

theorem Step.relabel_leftInverse (h : Function.LeftInverse ρ' ρ) :
    Function.LeftInverse (Step.relabel ρ') (Step.relabel ρ) := by
  intro step
  cases step with
  | types c => exact congrArg types (Constraint.relabel_leftInverse h c)
  | method name => rfl
  | overloads name sub sup =>
      have hm := Signature.relabel_leftInverse h
      rw [relabel, relabel, hm, hm]

theorem Reason.relabel_leftInverse (h : Function.LeftInverse ρ' ρ) :
    Function.LeftInverse (Reason.relabel ρ') (Reason.relabel ρ) := by
  intro reason
  cases reason with
  | unknownPair c => exact congrArg unknownPair (Constraint.relabel_leftInverse h c)
  | _ => rfl

theorem Outcome.relabel_leftInverse (h : Function.LeftInverse ρ' ρ) :
    Function.LeftInverse (Outcome.relabel ρ') (Outcome.relabel ρ) := by
  intro o
  cases o with
  | success => rfl
  | failure f =>
      rw [relabel, relabel, Failure.relabel, Failure.relabel, Reason.relabel_leftInverse h,
        (Step.relabel_leftInverse h).list_map]

theorem Kept.relabel_leftInverse (h : Function.LeftInverse ρ' ρ) :
    Function.LeftInverse (Kept.relabel ρ') (Kept.relabel ρ) := by
  intro k
  have hentry : Function.LeftInverse
      (fun e : Constraint × Outcome => (e.1.relabel ρ', e.2.relabel ρ'))
      fun e => (e.1.relabel ρ, e.2.relabel ρ) :=
    fun e => Prod.ext (Constraint.relabel_leftInverse h e.1) (Outcome.relabel_leftInverse h e.2)
  have hentries := hentry.list_map k.memo.entries
  rw [relabel, relabel, Memo.relabel, Memo.relabel, hentries]

end Undone

namespace FreshSupply

/-- The variables that the second supply gives out in the places of those that the first gives
out. -/
def counterpart (s s' : FreshSupply) (v : TypeVar) : TypeVar :=
  if v.id < s.next then v else ⟨v.name, s'.next + (v.id - s.next)⟩

variable {s s' : FreshSupply} {v : TypeVar}

theorem counterpart_of_lt (h : v.id < s.next) : s.counterpart s' v = v := if_pos h

theorem counterpart_next (a : Atom) (i : Nat) :
    s.counterpart s' ⟨a, s.next + i⟩ = ⟨a, s'.next + i⟩ := by
  have hnew : ¬s.next + i < s.next := by omega
  rw [counterpart, if_neg hnew, Nat.add_sub_cancel_left]

theorem counterpart_counterpart (h : v.id < s.next → v.id < s'.next) :
    s'.counterpart s (s.counterpart s' v) = v := by
  by_cases hv : v.id < s.next
  · rw [counterpart_of_lt hv, counterpart_of_lt (h hv)]
  · obtain ⟨i, hi⟩ := Nat.exists_eq_add_of_le (Nat.le_of_not_lt hv)
    have hvar : v = ⟨v.name, s.next + i⟩ := by rw [← hi]
    rw [hvar, counterpart_next, counterpart_next]

theorem counterpart_leftInverse (hle : s.next ≤ s'.next) :
    Function.LeftInverse (s'.counterpart s) (s.counterpart s') := by
  intro v
  exact counterpart_counterpart fun h => Nat.lt_of_lt_of_le h hle

theorem moves_counterpart (hle : s.next ≤ s'.next) : Moves (s.counterpart s') s s' where
  injective := (counterpart_leftInverse hle).injective
  name v := by
    rw [counterpart]
    split <;> rfl
  next := counterpart_next

theorem injOn_counterpart {vs : List TypeVar} (hs' : s'.Above vs) :
    Set.InjOn (s.counterpart s') {v | v ∈ vs ∨ s.next ≤ v.id} := by
  have hback : Set.LeftInvOn (s'.counterpart s) (s.counterpart s') {v | v ∈ vs ∨ s.next ≤ v.id} := by
    intro v hv
    apply counterpart_counterpart
    intro hlt
    rcases hv with hv | hge
    · exact hs' v hv
    · exact absurd hlt (Nat.not_lt.mpr hge)
  exact hback.injOn

end FreshSupply

theorem Moves.next_eq {ρ : TypeVar → TypeVar} {s s' t t' : FreshSupply} (h : Moves ρ s s')
    (h' : Moves ρ t t') (hle : s.next ≤ t.next) : t'.next = s'.next + (t.next - s.next) := by
  have hs := h.next default (t.next - s.next)
  have ht := h'.next default 0
  rw [Nat.add_sub_cancel' hle, ← Nat.add_zero t.next, ht] at hs
  exact congrArg TypeVar.id hs

/-- The second progress is the first one with the variables of the other supply, which has given
out as many. -/
structure Progress.Renamed (s s' : FreshSupply) (σ σ' : Progress Kept) : Prop where
  kept : σ'.kept = σ.kept.relabel (s.counterpart s')
  issued : σ'.supply.next + s.next = σ.supply.next + s'.next

/-- The second call is the first one with the variables of the other supply. -/
structure Call.Renamed (s s' : FreshSupply) (x x' : Call Kept) : Prop where
  assumed : x'.assumed = x.assumed.map (Constraint.relabel (s.counterpart s'))
  path : x'.path = x.path.map (Step.relabel (s.counterpart s'))
  constraint : x'.constraint = x.constraint.relabel (s.counterpart s')
  progress : x.progress.Renamed s s' x'.progress

/-- The run from the second supply is the run from the first one with other variables: its answer
is, and it makes such a call for every one of the first run. -/
structure Store.RunsAlike (store : Store) (room : Nat) (c : Constraint) (s s' : FreshSupply) :
    Prop where
  outcome : (check store room [] [] c ⟨s', {}⟩).1 =
    (check store room [] [] c ⟨s, {}⟩).1.relabel (s.counterpart s')
  progress : (check store room [] [] c ⟨s, {}⟩).2.Renamed s s' (check store room [] [] c ⟨s', {}⟩).2
  calls : ∀ room' z, store.Within room ⟨[], [], c, ⟨s, {}⟩⟩ room' z →
    ∃ z', store.Within room ⟨[], [], c, ⟨s', {}⟩⟩ room' z' ∧ z.Renamed s s' z'

section Runs

variable {s s' : FreshSupply} {store : Store} {room : Nat} {c : Constraint}

theorem Progress.Mirrors.renamed (hle : s.next ≤ s'.next) {σ σ' : Progress Kept}
    (h : σ.Mirrors (s.counterpart s') σ') (hs : s.next ≤ σ.supply.next) :
    σ.Renamed s s' σ' ∧ σ'.Renamed s' s σ := by
  have hnext := (FreshSupply.moves_counterpart hle).next_eq h.supply hs
  have hback := Kept.relabel_leftInverse (FreshSupply.counterpart_leftInverse hle) σ.kept
  rw [← h.kept] at hback
  exact ⟨⟨h.kept, by omega⟩, ⟨hback.symm, by omega⟩⟩

theorem Call.Mirrors.renamed (hle : s.next ≤ s'.next) {x x' : Call Kept}
    (h : x.Mirrors (s.counterpart s') x') (hs : s.next ≤ x.progress.supply.next) :
    x.Renamed s s' x' ∧ x'.Renamed s' s x := by
  have hinverse := FreshSupply.counterpart_leftInverse hle
  obtain ⟨hto, hfrom⟩ := h.progress.renamed hle hs
  refine ⟨⟨h.assumed, h.path, h.constraint, hto⟩, ⟨?_, ?_, ?_, hfrom⟩⟩
  · rw [h.assumed, (Constraint.relabel_leftInverse hinverse).list_map]
  · rw [h.path, (Step.relabel_leftInverse hinverse).list_map]
  · rw [h.constraint, Constraint.relabel_leftInverse hinverse]

/-- Of two runs the one from the lower supply goes up to the other one, which comes down to it. -/
theorem Store.runsAlike_of_le (hle : s.next ≤ s'.next) (hs : s.Above (store.vars ++ c.vars)) :
    store.RunsAlike room c s s' ∧ store.RunsAlike room c s' s := by
  have hfix : ∀ v ∈ store.vars ++ c.vars, s.counterpart s' v = v :=
    fun v hv => FreshSupply.counterpart_of_lt (hs v hv)
  have hstore : ∀ v ∈ store.vars, s.counterpart s' v = v :=
    fun v hv => hfix v (List.mem_append_left _ hv)
  have hstart : Call.Mirrors (s.counterpart s') ⟨[], [], c, ⟨s, {}⟩⟩ ⟨[], [], c, ⟨s', {}⟩⟩ := by
    refine ⟨rfl, rfl, ?_, FreshSupply.moves_counterpart hle, rfl⟩
    exact (Constraint.relabel_eq_self fun v hv => hfix v (List.mem_append_right _ hv)).symm
  have hanswer : Mirrored (s.counterpart s') (check store room [] [] c ⟨s, {}⟩)
      (check store room [] [] c ⟨s', {}⟩) := check_mirrors hstore _ _ hstart
  have hinverse := FreshSupply.counterpart_leftInverse hle
  have hend : s.next ≤ (check store room [] [] c ⟨s, {}⟩).2.supply.next :=
    (check_advances [] [] c ⟨s, {}⟩).supply
  obtain ⟨hto, hfrom⟩ := hanswer.progress.renamed hle hend
  constructor
  · refine ⟨hanswer.outcome, hto, fun room' z hz => ?_⟩
    obtain ⟨z', hz', hzz⟩ := (hstart.within hstore).forth z hz
    exact ⟨z', hz', (hzz.renamed hle hz.advances.1.supply).1⟩
  · refine ⟨?_, hfrom, fun room' z hz => ?_⟩
    · have hback := Outcome.relabel_leftInverse hinverse (check store room [] [] c ⟨s, {}⟩).1
      rw [← hanswer.outcome] at hback
      exact hback.symm
    · obtain ⟨y, hy, hyz⟩ := (hstart.within hstore).back z hz
      exact ⟨y, hy, (hyz.renamed hle hy.advances.1.supply).2⟩

theorem Store.runsAlike (hs : s.Above (store.vars ++ c.vars)) (hs' : s'.Above (store.vars ++ c.vars)) :
    store.RunsAlike room c s s' := by
  rcases Nat.le_total s.next s'.next with hle | hle
  · exact (runsAlike_of_le hle hs).1
  · exact (runsAlike_of_le hle hs').2

end Runs

/-- From two supplies above all variables of the store and of the question, two new checkers come to
the same answer, keep the same outcomes and make the same calls up to the variables that they gave
out, of which there are as many at the same points. The renaming leaves the old variables alone and
makes no two of them and of the new ones the same. -/
theorem isSubtype_renamed (store : Store) (sub sup : Ty) (maxDepth : Nat) {s s' : FreshSupply}
    (hs : s.Above (store.vars ++ Constraint.vars ⟨sub, sup⟩))
    (hs' : s'.Above (store.vars ++ Constraint.vars ⟨sub, sup⟩)) :
    let ρ := s.counterpart s'
    let k : Checker := { maxDepth }
    let r := k.isSubtype store s sub sup
    let r' := k.isSubtype store s' sub sup
    (Set.InjOn ρ {v | v ∈ store.vars ++ Constraint.vars ⟨sub, sup⟩ ∨ s.next ≤ v.id} ∧
      (∀ v ∈ store.vars ++ Constraint.vars ⟨sub, sup⟩, ρ v = v) ∧
      ∀ a i, ρ ⟨a, s.next + i⟩ = ⟨a, s'.next + i⟩) ∧
    (r'.1 = r.1.relabel ρ ∧ r.1 = r'.1.relabel (s'.counterpart s)) ∧
    r'.2.1.kept = r.2.1.kept.relabel ρ ∧
    (s.next ≤ r.2.2.next ∧ r'.2.2.next + s.next = r.2.2.next + s'.next) ∧
    ∀ room z, store.Within maxDepth (k.call s [] [] ⟨sub, sup⟩) room z →
      ∃ z', store.Within maxDepth (k.call s' [] [] ⟨sub, sup⟩) room z' ∧ z.Renamed s s' z' := by
  intro ρ k r r'
  have halike : store.RunsAlike maxDepth ⟨sub, sup⟩ s s' := store.runsAlike hs hs'
  have hback : store.RunsAlike maxDepth ⟨sub, sup⟩ s' s := store.runsAlike hs' hs
  refine ⟨⟨FreshSupply.injOn_counterpart hs', fun v hv => FreshSupply.counterpart_of_lt (hs v hv),
    FreshSupply.counterpart_next⟩, ⟨halike.outcome, hback.outcome⟩, halike.progress.kept,
    ⟨?_, halike.progress.issued⟩, halike.calls⟩
  exact (check_advances [] [] ⟨sub, sup⟩ ⟨s, {}⟩).supply

/-- Two interfaces with one method, which has a type parameter: it returns that in one of them and
nil in the other. -/
def pickers : Store where
  templates := [(1, Ty.var ⟨⟨4⟩, 0⟩), (2, Ty.nil)].map fun e => (.interface,
    { name := ⟨e.1⟩, methods := [⟨⟨3⟩, [{ typeParams := [⟨⟨4⟩, 0⟩], result := e.2 }]⟩] })

/-- The failure names the variable that was given out first. -/
theorem isSubtype_renamed_pickers :
    let r := ({} : Checker).isSubtype pickers ⟨1⟩ (.name ⟨1⟩ .interface []) (.name ⟨2⟩ .interface [])
    let r' := ({} : Checker).isSubtype pickers ⟨7⟩ (.name ⟨1⟩ .interface []) (.name ⟨2⟩ .interface [])
    (∃ path, r.1 = .failure ⟨.unknownPair ⟨.var ⟨⟨4⟩, 1⟩, .nil⟩, path⟩) ∧ r.2.2.next = 3 ∧
      r'.1 = r.1.relabel (FreshSupply.counterpart ⟨1⟩ ⟨7⟩) ∧ r'.2.2.next = 9 := by
  intro r r'
  have habove : ∀ n, 1 ≤ n → FreshSupply.Above ⟨n⟩ (pickers.vars ++
      Constraint.vars ⟨.name ⟨1⟩ .interface [], .name ⟨2⟩ .interface []⟩) := by
    intro n hn
    exact FreshSupply.Above.of_le (s := ⟨1⟩) hn (by decide +kernel)
  have hsame := isSubtype_renamed pickers (.name ⟨1⟩ .interface []) (.name ⟨2⟩ .interface [])
    Limits.maxDepth (habove 1 (by decide)) (habove 7 (by decide))
  have hissued : r.2.2.next = 3 := by decide +kernel
  have hissued' : r'.2.2.next + 1 = r.2.2.next + 7 := hsame.2.2.2.1.2
  exact ⟨⟨_, rfl⟩, hissued, hsame.2.1.1, by omega⟩

end Subtyping
