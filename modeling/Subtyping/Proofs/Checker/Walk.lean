import Subtyping.Proofs.Checker.Within

/-!
# Walking through a check

The check hands its place and the room that is left down as arguments. Here they are state instead: a
walker has one path, on which places are put when they are entered and cut off when they are left, and
a depth that is raised and lowered again. It finds what the check finds, and at the end its path and
its depth are what they were (`walks_iff`).
-/

namespace Subtyping

/-- A checker at work, with the supply that it draws from and the path that it is on. -/
structure Walker where
  checker : Checker
  supply : FreshSupply
  path : Path

namespace Walker

def progress (w : Walker) : Progress Kept := ⟨w.supply, w.checker.kept⟩

/-- How many more nested constraints may be opened. -/
def room (w : Walker) : Nat := w.checker.maxDepth - w.checker.depth

def withProgress (w : Walker) (σ : Progress Kept) : Walker :=
  { w with supply := σ.supply, checker.kept := σ.kept }

def enter (w : Walker) (step : Step) : Walker := { w with path := w.path ++ [step] }

/-- Leave all places but the first so many. -/
def leave (w : Walker) (n : Nat) : Walker := { w with path := w.path.take n }

def descend (w : Walker) : Walker := { w with checker.depth := w.checker.depth + 1 }

def ascend (w : Walker) : Walker := { w with checker.depth := w.checker.depth - 1 }

def hit (w : Walker) : Walker :=
  { w with checker.kept.ceilingHits := w.checker.kept.ceilingHits + 1 }

/-- Keep an outcome if the limit was met no more often than before. -/
def settle (w : Walker) (hits : Nat) (c : Constraint) (o : Outcome) : Walker :=
  if w.checker.kept.ceilingHits = hits then w.withProgress (w.progress.remember w.path c o) else w

end Walker

/-- A walker solves a goal: what it was before, the outcome, and what it is afterwards. -/
inductive Walks (store : Store) : Goal → Assumptions → Walker → Outcome → Walker → Prop
  | trivial {A w} : Walks store .trivial A w .success w
  | impossible {reason A w} :
      Walks store (.impossible reason) A w (.failure ⟨reason, w.path⟩) w
  | memo {c A w o} (h : w.checker.kept.memo.get? c = some o) :
      Walks store (.nested c) A w (o.mapFailure (Failure.after w.path)) w
  | assumed {c A w} (h : w.checker.kept.memo.get? c = none) (hc : c ∈ A) :
      Walks store (.nested c) A w .success w
  | ceiling {c A w} (h : w.checker.kept.memo.get? c = none) (hc : c ∉ A)
      (hdepth : w.checker.maxDepth ≤ w.checker.depth) :
      Walks store (.nested c) A w (.failure ⟨.depthExceeded, w.path⟩) w.hit
  | opened {c A w o w'} (h : w.checker.kept.memo.get? c = none) (hc : c ∉ A)
      (hdepth : w.checker.depth < w.checker.maxDepth)
      (hgoal : Walks store (store.goal c) (c :: A) (w.enter (.types c)).descend o w') :
      Walks store (.nested c) A w o
        ((w'.ascend.leave w.path.length).settle w.checker.kept.ceilingHits c o)
  | bothSecond {g h A w w' o w''} (hfirst : Walks store g A w .success w')
      (hsecond : Walks store h A w' o w'') : Walks store (.both g h) A w o w''
  | bothFirst {g h A w f w'} (hfirst : Walks store g A w (.failure f) w') :
      Walks store (.both g h) A w (.failure f) w'
  | eitherFirst {g h A w w'} (hfirst : Walks store g A w .success w') :
      Walks store (.either g h) A w .success w'
  | eitherSecond {g h A w f w' w''} (hfirst : Walks store g A w (.failure f) w')
      (hsecond : Walks store h A w' .success w'') : Walks store (.either g h) A w .success w''
  | eitherNone {g h A w f w' f' w''} (hfirst : Walks store g A w (.failure f) w')
      (hsecond : Walks store h A w' (.failure f') w'') :
      Walks store (.either g h) A w (.failure f) w''
  | within {step g A w o w'} (hbody : Walks store g A (w.enter step) o w') :
      Walks store (.within step g) A w o (w'.leave w.path.length)
  | parameters {method g A w o w'} (hbody : Walks store g A w o w') :
      Walks store (.parameters method g) A w (o.mapFailure (Failure.asParameter method)) w'
  | fresh {sub sup body A w o w'}
      (hbody : Walks store
        (body (w.supply.drawAll sub).1 ((w.supply.drawAll sub).2.drawAll sup).1)
        (equalities (w.supply.drawAll sub).1 ((w.supply.drawAll sub).2.drawAll sup).1 ++ A)
        { w with supply := ((w.supply.drawAll sub).2.drawAll sup).2 } o w') :
      Walks store (.fresh sub sup body) A w o w'

namespace Walker

theorem leave_enter (w : Walker) (step : Step) (σ : Progress Kept) :
    ((w.enter step).withProgress σ).leave w.path.length = w.withProgress σ := by
  simp [leave, enter, withProgress]

theorem leave_ascend (w : Walker) (step : Step) (σ : Progress Kept) :
    (((w.enter step).descend.withProgress σ).ascend).leave w.path.length = w.withProgress σ := by
  simp [leave, enter, descend, ascend, withProgress]

theorem room_descend {w : Walker} {room : Nat} (h : w.room = room + 1) (step : Step) :
    (w.enter step).descend.room = room := by
  simp only [Walker.room, enter, descend] at h ⊢
  omega

theorem exists_room {w : Walker} (h : w.checker.depth < w.checker.maxDepth) :
    ∃ room, w.room = room + 1 := by
  refine ⟨w.room - 1, ?_⟩
  simp only [room]
  omega

/-- The call of a check where the walker is. -/
def call (w : Walker) (A : Assumptions) (c : Constraint) : Call Kept := ⟨A, w.path, c, w.progress⟩

theorem settle_opened {store : Store} {room : Nat} {A : Assumptions} {c : Constraint} {w : Walker}
    (hx : (w.call A c).Undecided) :
    (w.withProgress (store.opened room (w.call A c)).2).settle w.checker.kept.ceilingHits c
        (store.opened room (w.call A c)).1 =
      w.withProgress (check store (room + 1) A w.path c w.progress).2 := by
  have hcheck : check store (room + 1) A w.path c w.progress = _ := hx.answer_succ
  rw [hcheck]
  generalize store.opened room (w.call A c) = r
  by_cases hhits : r.2.kept.ceilingHits = w.checker.kept.ceilingHits
  · exact (if_pos hhits).trans (congrArg w.withProgress (if_pos hhits).symm)
  · exact (if_neg hhits).trans (congrArg w.withProgress (if_neg hhits).symm)

theorem opened_fst {store : Store} {room : Nat} {A : Assumptions} {c : Constraint} {w : Walker}
    (hx : (w.call A c).Undecided) :
    (store.opened room (w.call A c)).1 = (check store (room + 1) A w.path c w.progress).1 := by
  have hcheck : check store (room + 1) A w.path c w.progress = _ := hx.answer_succ
  rw [hcheck]

end Walker

variable {store : Store}

theorem Walks.eq {g : Goal} {A : Assumptions} {w w' : Walker} {o : Outcome}
    (h : Walks store g A w o w') :
    o = (g.solve (check store w.room) A w.path w.progress).1 ∧
      w' = w.withProgress (g.solve (check store w.room) A w.path w.progress).2 := by
  induction h with
  | trivial => exact ⟨rfl, rfl⟩
  | impossible => exact ⟨rfl, rfl⟩
  | memo h =>
      rw [Goal.solve, check_of_memo h]
      exact ⟨rfl, rfl⟩
  | assumed h hc =>
      rw [Goal.solve, check_of_assumed h hc]
      exact ⟨rfl, rfl⟩
  | @ceiling c A w h hc hdepth =>
      have hroom : w.room = 0 := Nat.sub_eq_zero_of_le hdepth
      rw [Goal.solve, hroom, check_zero h hc]
      exact ⟨rfl, rfl⟩
  | @opened c A w o w' h hc hdepth hgoal ih =>
      obtain ⟨room, hroom⟩ : ∃ room, w.room = room + 1 := Walker.exists_room hdepth
      have hx : (w.call A c).Undecided := ⟨h, hc⟩
      rw [Walker.room_descend hroom] at ih
      obtain ⟨rfl, rfl⟩ := ih
      rw [hroom, Walker.leave_ascend]
      exact ⟨Walker.opened_fst hx, Walker.settle_opened hx⟩
  | bothSecond hfirst hsecond ihfirst ihsecond =>
      obtain ⟨hsuccess, rfl⟩ := ihfirst
      rw [Goal.solve_both_of_success hsuccess.symm]
      exact ihsecond
  | bothFirst hfirst ih =>
      rw [Goal.solve_both_of_failure ih.1.symm]
      exact ih
  | eitherFirst hfirst ih =>
      rw [Goal.solve_either_of_success ih.1.symm]
      exact ih
  | eitherSecond hfirst hsecond ihfirst ihsecond =>
      obtain ⟨hfailure, rfl⟩ := ihfirst
      rw [Goal.solve_either_of_failure hfailure.symm]
      exact ⟨(if_pos ihsecond.1.symm).symm, ihsecond.2⟩
  | @eitherNone g h A w f w' f' w'' hfirst hsecond ihfirst ihsecond =>
      obtain ⟨hfailure, rfl⟩ := ihfirst
      rw [Goal.solve_either_of_failure hfailure.symm]
      refine ⟨(if_neg ?_).symm, ihsecond.2⟩
      intro hsuccess
      cases ihsecond.1.trans hsuccess
  | within hbody ih =>
      obtain ⟨rfl, rfl⟩ := ih
      exact ⟨rfl, Walker.leave_enter _ _ _⟩
  | parameters hbody ih =>
      obtain ⟨rfl, rfl⟩ := ih
      exact ⟨rfl, rfl⟩
  | fresh hbody ih => exact ih

section Exists

variable {room : Nat}

private theorem walks_solve
    (H : ∀ A c (w : Walker), w.room = room →
      Walks store (.nested c) A w (check store room A w.path c w.progress).1
        (w.withProgress (check store room A w.path c w.progress).2))
    (g : Goal) (A : Assumptions) (w : Walker) (hroom : w.room = room) :
    Walks store g A w (g.solve (check store room) A w.path w.progress).1
      (w.withProgress (g.solve (check store room) A w.path w.progress).2) := by
  induction g generalizing A w with
  | trivial => exact .trivial
  | impossible reason => exact .impossible
  | nested c => exact H A c w hroom
  | both g h ihg ihh =>
      have hfirst := ihg A w hroom
      cases hg : (g.solve (check store room) A w.path w.progress).1 with
      | success =>
          rw [hg] at hfirst
          rw [Goal.solve_both_of_success hg]
          exact .bothSecond hfirst (ihh A (w.withProgress _) hroom)
      | failure f =>
          rw [Goal.solve_both_of_failure hg, hg]
          rw [hg] at hfirst
          exact .bothFirst hfirst
  | either g h ihg ihh =>
      have hfirst := ihg A w hroom
      cases hg : (g.solve (check store room) A w.path w.progress).1 with
      | success =>
          rw [Goal.solve_either_of_success hg, hg]
          rw [hg] at hfirst
          exact .eitherFirst hfirst
      | failure f =>
          have hsecond := ihh A
            (w.withProgress (g.solve (check store room) A w.path w.progress).2) hroom
          rw [hg] at hfirst
          rw [Goal.solve_either_of_failure hg]
          dsimp only
          generalize g.solve (check store room) A w.path w.progress = r at hfirst hsecond ⊢
          cases hh : (h.solve (check store room) A w.path r.2).1 with
          | success =>
              rw [if_pos rfl]
              exact .eitherSecond hfirst (hh ▸ hsecond)
          | failure f' =>
              rw [if_neg (by simp)]
              exact .eitherNone hfirst (hh ▸ hsecond)
  | within step g ih =>
      have hbody := Walks.within (ih A (w.enter step) hroom)
      rwa [Walker.leave_enter] at hbody
  | parameters method g ih => exact .parameters (ih A w hroom)
  | fresh sub sup body ih => exact .fresh (ih _ _ _ { w with supply := _ } hroom)

private theorem walks_of_decided {A : Assumptions} {c : Constraint} {w : Walker}
    (hx : ¬(w.call A c).Undecided) :
    Walks store (.nested c) A w (check store room A w.path c w.progress).1
      (w.withProgress (check store room A w.path c w.progress).2) := by
  rcases Call.memo_or_assumed hx with ⟨o, hm⟩ | ⟨hm, hc⟩
  · have hcheck : check store room A w.path c w.progress = _ := check_of_memo hm
    rw [hcheck]
    exact .memo hm
  · have hcheck : check store room A w.path c w.progress = _ := check_of_assumed hm hc
    rw [hcheck]
    exact .assumed hm hc

private theorem walks_check (A : Assumptions) (c : Constraint) (w : Walker) (hroom : w.room = room) :
    Walks store (.nested c) A w (check store room A w.path c w.progress).1
      (w.withProgress (check store room A w.path c w.progress).2) := by
  induction room generalizing A c w with
  | zero =>
      by_cases hx : (w.call A c).Undecided
      · have hcheck : check store 0 A w.path c w.progress = _ := hx.answer_zero
        rw [hcheck]
        exact .ceiling hx.vacant hx.notAssumed (Nat.le_of_sub_eq_zero hroom)
      · exact walks_of_decided hx
  | succ room ih =>
      by_cases hx : (w.call A c).Undecided
      · have hgoal := walks_solve ih (store.goal c) (c :: A) (w.enter (.types c)).descend
          (Walker.room_descend hroom (.types c))
        have hdepth : w.checker.depth < w.checker.maxDepth := by
          simp only [Walker.room] at hroom
          omega
        have hwalks := Walks.opened hx.vacant hx.notAssumed hdepth hgoal
        rw [Walker.leave_ascend] at hwalks
        rw [← Walker.opened_fst hx, ← Walker.settle_opened hx]
        exact hwalks
      · exact walks_of_decided hx

end Exists

/-- A walker does what the check does, and has its path and its depth back in the end. -/
theorem walks_iff {g : Goal} {A : Assumptions} {w w' : Walker} {o : Outcome} :
    Walks store g A w o w' ↔
      o = (g.solve (check store w.room) A w.path w.progress).1 ∧
        w' = w.withProgress (g.solve (check store w.room) A w.path w.progress).2 := by
  constructor
  · exact Walks.eq
  · rintro ⟨rfl, rfl⟩
    exact walks_solve (fun A c w h => walks_check A c w h) g A w rfl

theorem Checker.walks_iff_checkAt {k : Checker} {supply : FreshSupply} {A : Assumptions}
    {path : Path} {c : Constraint} {o : Outcome} {w : Walker} :
    Walks store (.nested c) A ⟨k, supply, path⟩ o w ↔
      o = (k.checkAt store supply A path c).1 ∧
        w = ⟨(k.checkAt store supply A path c).2.1, (k.checkAt store supply A path c).2.2, path⟩ :=
  walks_iff

end Subtyping
