import Subtyping.Proofs.Checker.Scope
import Subtyping.Proofs.Checker.Walk

/-!
# Memory is written once

An outcome in memory stays as it is, and what is assumed gets none (`Advances`). Between questions the
variables of all constraints in memory are older than the next fresh ones (`Checker.Used`), so that an
equality of fresh variables is not in memory when it is assumed. Hence memory, which is consulted before
the assumptions, never hides one of them (`Checker.checkAt_writeOnce`).
-/

namespace Subtyping

theorem Goal.Calls.above {κ : Type} {decide : Decision κ}
    (hdecide : ∀ A path c (σ : Progress κ), σ.supply.next ≤ (decide A path c σ).2.supply.next)
    {g : Goal} {A : Assumptions} {path : Path} {σ : Progress κ} {x : Call κ} {vs : List TypeVar}
    (hg : g.Supported vs) (hvs : σ.supply.Above vs) (hx : g.Calls decide A path σ x) :
    x.progress.supply.Above x.constraint.vars := by
  induction g generalizing A path σ vs with
  | trivial => exact hx.elim
  | impossible reason => exact hx.elim
  | nested c =>
      obtain rfl := hx
      exact fun v hv => hvs v (hg.mem_of_mem_vars hv)
  | both g h ihg ihh =>
      rcases hx with hx | ⟨_, hx⟩
      · exact ihg hg.both_left hvs hx
      · exact ihh hg.both_right (hvs.of_le (next_le_next_solve hdecide g A path σ)) hx
  | either g h ihg ihh =>
      rcases hx with hx | ⟨_, hx⟩
      · exact ihg hg.either_left hvs hx
      · exact ihh hg.either_right (hvs.of_le (next_le_next_solve hdecide g A path σ)) hx
  | within step g ih => exact ih hg.within hvs hx
  | parameters method g ih => exact ih hg.parameters hvs hx
  | fresh sub sup body ih =>
      have hdrawn := drawn_drawAll σ.supply sub sup
      exact ih _ _ (hg.fresh _ _) (hdrawn.above_append hvs) hx

section Calls

variable {store : Store} {room room' : Nat} {x y z : Call Kept}

theorem Store.Within.above (h : store.Within room x room' z)
    (hstore : x.progress.supply.Above store.vars)
    (hx : x.progress.supply.Above x.constraint.vars) :
    z.progress.supply.Above z.constraint.vars := by
  induction h with
  | self => exact hx
  | @deeper room room' x y z hundecided hy hz ih =>
      have hle : ∀ A path c σ, σ.supply.next ≤ (check store room A path c σ).2.supply.next :=
        fun A path c σ => (check_advances A path c σ).supply
      have habove := Goal.Calls.above hle (store.goal_supported x.constraint) (hstore.append hx) hy
      exact ih (hstore.of_le hy.advances.1.supply) habove

theorem Call.Undecided.vacant_of_makes (hx : x.Undecided) (hy : store.Makes room x y)
    (hz : store.Within room y room' z) :
    z.progress.kept.memo.get? x.constraint = none ∧
      (z.answer (check store room')).2.kept.memo.get? x.constraint = none := by
  have hopen : y.progress.kept.memo.get? x.constraint = none :=
    hy.advances.1.vacant _ List.mem_cons_self hx.vacant
  exact hz.vacant (hy.subset List.mem_cons_self) hopen

/-- Nothing that is assumed is in memory, and whatever is in memory is about variables that have been
made. -/
structure Apart (A : Assumptions) (σ : Progress Kept) : Prop where
  vacant : ∀ a ∈ A, σ.kept.memo.get? a = none
  older : ∀ c o, σ.kept.memo.get? c = some o → σ.supply.Above c.vars

namespace Apart

variable {A : Assumptions} {σ : Progress Kept}

theorem drawn (h : Apart A σ) (sub sup : List TypeVar) :
    Apart (equalities (σ.supply.drawAll sub).1 ((σ.supply.drawAll sub).2.drawAll sup).1 ++ A)
      { σ with supply := ((σ.supply.drawAll sub).2.drawAll sup).2 } := by
  have hdrawn := drawn_drawAll σ.supply sub sup
  refine ⟨fun a ha => ?_, fun c o hc => (h.older c o hc).of_le hdrawn.le⟩
  rcases List.mem_append.mp ha with ha | ha
  · obtain ⟨v, hv, hnew⟩ := hdrawn.new_of_mem_equalities ha
    cases hm : σ.kept.memo.get? a with
    | none => rfl
    | some o => exact absurd (h.older a o hm v hv) (Nat.not_lt.mpr hnew)
  · exact h.vacant a ha

theorem remembered {c : Constraint} (h : Apart A σ) (hc : c ∉ A) (habove : σ.supply.Above c.vars)
    (path : Path) (o : Outcome) : Apart A (σ.remember path c o) := by
  refine ⟨fun a ha => ?_, fun d o' hd => ?_⟩
  · have hne : a ≠ c := by
      rintro rfl
      exact hc ha
    rw [Progress.remember, Memo.get?_insert_of_ne _ hne]
    exact h.vacant a ha
  · rcases Memo.eq_or_get?_of_get?_insert hd with ⟨rfl, _⟩ | hd
    · exact habove
    · exact h.older d o' hd

end Apart

/-- In the course of a call nothing that is assumed gets into memory, and nothing that is in memory
gets assumed. -/
theorem check_apart (hstore : x.progress.supply.Above store.vars)
    (hx : x.progress.supply.Above x.constraint.vars) (h : Apart x.assumed x.progress) :
    Apart x.assumed (x.answer (check store room)).2 ∧
      ∀ room' z, store.Within room x room' z → Apart z.assumed z.progress := by
  have hkeeps : store.Keeps room x Apart := by
    refine ⟨fun A σ sub sup h => h.drawn sub sup, ?_, ?_, fun A σ h => ⟨h.vacant, h.older⟩, ?_⟩
    · exact fun A B σ h => ⟨fun a ha => h.vacant a (List.mem_append_right B ha), h.older⟩
    · exact fun room' z hz hundecided h =>
        ⟨List.forall_mem_cons.mpr ⟨hundecided.vacant, h.vacant⟩, h.older⟩
    · intro room' z hz hundecided _ h
      have hbelow : Apart z.assumed (store.opened room' z).2 :=
        ⟨fun a ha => h.vacant a (List.mem_cons_of_mem _ ha), h.older⟩
      have habove := (hz.above hstore hx).of_le (store.opened_advances room' z).supply
      exact hbelow.remembered hundecided.notAssumed habove z.path _
  exact check_keeps hkeeps h

end Calls

namespace Checker

/-- A checker and a supply between questions: new at first, then whatever becomes of them when the
limit is changed, memory is cleared, variables are drawn elsewhere, or a question is asked that is about
variables which were there, like the store. -/
inductive Used : Checker → FreshSupply → Prop
  | new (maxDepth : Nat) (supply : FreshSupply) : Used { maxDepth } supply
  | withMaxDepth {k : Checker} {supply : FreshSupply} (h : k.Used supply) (maxDepth : Nat) :
      (k.withMaxDepth maxDepth).Used supply
  | clear {k : Checker} {supply : FreshSupply} (h : k.Used supply) : k.clear.Used supply
  | later {k : Checker} {supply supply' : FreshSupply} (h : k.Used supply)
      (hle : supply.next ≤ supply'.next) : k.Used supply'
  | asked {k : Checker} {supply : FreshSupply} (h : k.Used supply) {store : Store} {c : Constraint}
      (hstore : supply.Above store.vars) (hc : supply.Above c.vars) :
      (k.isSubtype store supply c.sub c.sup).2.1.Used (k.isSubtype store supply c.sub c.sup).2.2

theorem Used.apart {k : Checker} {supply : FreshSupply} (h : k.Used supply) :
    Apart [] ⟨supply, k.kept⟩ := by
  induction h with
  | new => exact ⟨fun a ha => absurd ha List.not_mem_nil, fun c o hc => nomatch hc⟩
  | withMaxDepth h maxDepth ih => exact ih
  | clear h ih => exact ⟨fun a ha => absurd ha List.not_mem_nil, fun c o hc => nomatch hc⟩
  | later h hle ih => exact ⟨ih.vacant, fun c o hc => (ih.older c o hc).of_le hle⟩
  | @asked k supply h store c hstore hc ih =>
      exact (check_apart (x := k.call supply [] [] c) hstore hc ih).1

/-- One who walks through a check finds his path and his depth again in the end, every outcome that was
in memory, and none for what was assumed and had none. While a constraint is open there is no outcome
for it, at every call that is made below it and at the answer; so there is none when its own is to be
kept. When a checker in use is asked a question, nothing that is assumed where a call is made is in
memory then, or when it is answered. -/
theorem checkAt_writeOnce :
    (∀ (k : Checker) (store : Store) (supply : FreshSupply) (A : Assumptions) (path : Path)
      (c : Constraint), ∃ o w, (∀ o' w', Walks store (.nested c) A ⟨k, supply, path⟩ o' w' ↔
          o' = o ∧ w' = w) ∧
        (o, w.checker, w.supply) = k.checkAt store supply A path c ∧
        w.path = path ∧ w.checker.depth = k.depth ∧
        (∀ d o, k.kept.memo.get? d = some o → w.checker.kept.memo.get? d = some o) ∧
        ∀ a ∈ A, k.kept.memo.get? a = none → w.checker.kept.memo.get? a = none) ∧
    (∀ (store : Store) (room : Nat) (x : Call Kept), x.Undecided →
      (∀ y, store.Makes room x y → ∀ room' z, store.Within room y room' z →
        z.progress.kept.memo.get? x.constraint = none ∧
          (z.answer (check store room')).2.kept.memo.get? x.constraint = none) ∧
      (store.opened room x).2.kept.memo.get? x.constraint = none) ∧
    ∀ (k : Checker) (supply : FreshSupply), k.Used supply → ∀ (store : Store) (c : Constraint),
      supply.Above store.vars → supply.Above c.vars →
        ∀ room z, store.Within (k.maxDepth - k.depth) (k.call supply [] [] c) room z →
          ∀ a ∈ z.assumed, z.progress.kept.memo.get? a = none ∧
            (z.answer (check store room)).2.kept.memo.get? a = none := by
  refine ⟨?_, ?_, ?_⟩
  · intro k store supply A path c
    have hadvances : Advances A ⟨supply, k.kept⟩
        (check store (k.maxDepth - k.depth) A path c ⟨supply, k.kept⟩).2 :=
      check_advances A path c ⟨supply, k.kept⟩
    exact ⟨_, _, fun o w => walks_iff_checkAt, rfl, rfl, rfl, hadvances.keeps, hadvances.vacant⟩
  · intro store room x hx
    refine ⟨fun y hy room' z hz => hx.vacant_of_makes hy hz, ?_⟩
    exact vacant_of_solve hx.vacant (store.goal x.constraint)
  · intro k supply hused store c hstore hc room z hz a ha
    have hapart := (check_apart (x := k.call supply [] [] c) hstore hc hused.apart).2 room z hz
    have hvacant := hapart.vacant a ha
    exact ⟨hvacant, z.answer_advances.vacant a ha hvacant⟩

end Checker

/-- Two interfaces with one method, which gives back what it takes, whatever that is. -/
def echoes : Store where
  templates := [1, 2].map fun n => (.interface,
    { name := ⟨n⟩, methods := [⟨⟨3⟩, [{ typeParams := [⟨⟨n + 3⟩, 0⟩],
                                        params := { required := [.var ⟨⟨n + 3⟩, 0⟩] },
                                        result := .var ⟨⟨n + 3⟩, 0⟩ }]⟩] })

/-- The variables of the two methods are assumed to be equal when their parameters are compared, which
is not in memory. -/
theorem Checker.checkAt_writeOnce_echoes :
    let c : Constraint := ⟨.name ⟨1⟩ .interface [], .name ⟨2⟩ .interface []⟩
    let x : Call Kept := ({} : Checker).call {} [] [] c
    let d : Constraint := ⟨.var ⟨⟨5⟩, 2⟩, .var ⟨⟨4⟩, 1⟩⟩
    ({} : Checker).Used {} ∧ x.Undecided ∧
      ∃ z, echoes.Makes 99 x z ∧ z.constraint = d ∧ d ∈ z.assumed ∧
        z.progress.kept.memo.get? c = none ∧ z.progress.kept.memo.get? d = none := by
  intro c x d
  have hused : ({} : Checker).Used {} := .new _ _
  have hx : x.Undecided := by decide
  obtain ⟨z, hz, hd, hassumed⟩ : ∃ z, echoes.Makes 99 x z ∧ z.constraint = d ∧ d ∈ z.assumed :=
    ⟨_, .inl (.inl (.inl (.inl rfl))), rfl, by decide⟩
  have hwithin := Store.Within.deeper hx hz (.self 99 z)
  have hopen := (checkAt_writeOnce.2.1 echoes 99 x hx).1 z hz 99 z (.self 99 z)
  have hvacant := checkAt_writeOnce.2.2 {} {} hused echoes c (by decide +kernel) (by decide) 99 z
    hwithin d hassumed
  exact ⟨hused, hx, z, hz, hd, hassumed, hopen.1, hvacant.1⟩

end Subtyping
