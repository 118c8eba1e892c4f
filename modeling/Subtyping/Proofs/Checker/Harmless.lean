import Subtyping.Proofs.Checker.Derivation

/-!
# Harmless constraints

No rule refuses a constraint between a type and itself, one with the unknown type, or one from a union
to one of its members, whatever the names in it stand for (`Constraint.Harmless`). Where nothing but
successes led to such a constraint, its check can only fail for want of room
(`depthExceeded_of_harmless`).
-/

namespace Subtyping

/-- Constraints that hold by the looks of their two types. -/
inductive Constraint.Harmless : Constraint → Prop
  | same (t : Ty) : Harmless ⟨t, t⟩
  | fromAny (t : Ty) : Harmless ⟨.any, t⟩
  | toAny (t : Ty) : Harmless ⟨t, .any⟩
  | member {t : Ty} {ts : List Ty} (ht : t ∈ ts) : Harmless ⟨.union ts, t⟩

theorem Store.goal_of_harmless (store : Store) {c : Constraint} (h : c.Harmless) :
    store.goal c = .trivial ∨ ∃ ts : List Ty, c.sup ∈ ts ∧
      store.goal c = .any (.impossible (.unknownPair c)) (ts.map fun t => .nested ⟨t, c.sup⟩) := by
  by_cases hopen : c.sub = c.sup ∨ c.sub = .any ∨ c.sup = .any
  · exact .inl (if_pos hopen)
  · cases h with
    | same t => exact absurd (.inl rfl) hopen
    | fromAny t => exact absurd (.inr (.inl rfl)) hopen
    | toAny t => exact absurd (.inr (.inr rfl)) hopen
    | @member t ts ht =>
        unfold Store.goal
        rw [if_neg hopen]
        cases t with
        | var v => exact .inl rfl
        | _ => exact .inr ⟨ts, ht, rfl⟩

/-- No harmless constraint is kept as a failure. -/
def Memo.Lenient (m : Memo) : Prop := ∀ c f, m.get? c = some (.failure f) → ¬c.Harmless

/-- Nothing at all is kept as a failure. -/
def Memo.Clean (m : Memo) : Prop := ∀ c f, m.get? c ≠ some (.failure f)

variable {store : Store} {room : Nat} {A : Assumptions} {path : Path} {c : Constraint}
  {σ : Progress Kept}

theorem Memo.Lenient.insert {m : Memo} (h : m.Lenient) {c : Constraint} {o : Outcome}
    (hc : c.Harmless → o = .success) : (m.insert c o).Lenient := by
  intro d f hd hharmless
  rcases Memo.eq_or_get?_of_get?_insert hd with ⟨rfl, rfl⟩ | hd
  · exact nomatch hc hharmless
  · exact h d f hd hharmless

theorem Memo.Clean.insert {m : Memo} (h : m.Clean) (c : Constraint) : (m.insert c .success).Clean := by
  intro d f hd
  rcases Memo.eq_or_get?_of_get?_insert hd with ⟨_, ho⟩ | hd
  · exact nomatch ho
  · exact h d f hd

section Lenient

theorem check_same (A : Assumptions) (path : Path) (h : σ.kept.memo.Lenient) (t : Ty) :
    (check store room A path ⟨t, t⟩ σ).1 = .success ∨
      room = 0 ∧ σ.kept.ceilingHits < (check store room A path ⟨t, t⟩ σ).2.kept.ceilingHits := by
  cases hmemo : σ.kept.memo.get? ⟨t, t⟩ with
  | some o =>
      rw [check_of_memo hmemo]
      cases o with
      | success => exact .inl rfl
      | failure f => exact absurd (.same t) (h _ f hmemo)
  | none =>
      by_cases hA : (⟨t, t⟩ : Constraint) ∈ A
      · rw [check_of_assumed hmemo hA]
        exact .inl rfl
      · cases room with
        | zero =>
            rw [check_zero hmemo hA]
            exact .inr ⟨rfl, Nat.lt_succ_self _⟩
        | succ room =>
            have hgoal : store.goal ⟨t, t⟩ = .trivial := if_pos (.inl rfl)
            have hsolve : (store.goal ⟨t, t⟩).solve (check store room) (⟨t, t⟩ :: A)
                (path ++ [.types ⟨t, t⟩]) σ = (.success, σ) := by rw [hgoal]; rfl
            rw [check_succ hmemo hA, hsolve]
            exact .inl (by simp)

private theorem solve_lenient
    (H : ∀ A path c σ, σ.kept.memo.Lenient → (check store room A path c σ).2.kept.memo.Lenient)
    (g : Goal) (h : σ.kept.memo.Lenient) :
    (g.solve (check store room) A path σ).2.kept.memo.Lenient := by
  refine Goal.solve_advances (R := fun _ σ τ => σ.kept.memo.Lenient → τ.kept.memo.Lenient)
    ?_ ?_ ?_ H g A path σ h
  · exact fun _ _ hσ => hσ
  · intro _ _ _ _ hστ hτυ hσ
    exact hτυ (hστ hσ)
  · exact fun _ _ _ _ _ _ hστ => hστ

theorem Goal.any_cons_cons (otherwise g g' : Goal) (gs : List Goal) :
    any otherwise (g :: g' :: gs) = .either g (any otherwise (g' :: gs)) := rfl

private theorem solve_any_same
    (H : ∀ A path c σ, σ.kept.memo.Lenient → (check store room A path c σ).2.kept.memo.Lenient)
    {otherwise : Goal} {gs : List Goal} {t : Ty} (hg : .nested ⟨t, t⟩ ∈ gs)
    (h : σ.kept.memo.Lenient) :
    ((Goal.any otherwise gs).solve (check store room) A path σ).1 = .success ∨
      room = 0 ∧ σ.kept.ceilingHits <
        ((Goal.any otherwise gs).solve (check store room) A path σ).2.kept.ceilingHits := by
  have hle : ∀ (g : Goal) (σ : Progress Kept), σ.kept.ceilingHits ≤
      (g.solve (check store room) A path σ).2.kept.ceilingHits :=
    fun g σ => (solve_check_advances check_advances g A path σ).hits
  induction gs generalizing σ with
  | nil => exact absurd hg List.not_mem_nil
  | cons g gs ih =>
      cases gs with
      | nil =>
          obtain rfl := List.mem_singleton.mp hg
          exact check_same A path h t
      | cons g' gs =>
          rw [Goal.any_cons_cons, Goal.solve_either_eq_success_iff, Goal.solve_either_progress]
          by_cases hfirst : (g.solve (check store room) A path σ).1 = .success
          · exact .inl (.inl hfirst)
          · rw [if_neg hfirst]
            have hbefore := hle g σ
            have hafter := hle (Goal.any otherwise (g' :: gs))
              (g.solve (check store room) A path σ).2
            -- a hit of the limit in either part counts in the end, since none is ever taken back
            rcases List.mem_cons.mp hg with rfl | hg
            · rcases check_same A path h t with hsame | ⟨hroom, hlt⟩
              · exact absurd hsame hfirst
              · exact .inr ⟨hroom, Nat.lt_of_lt_of_le hlt hafter⟩
            · rcases ih hg (solve_lenient H g h) with hsecond | ⟨hroom, hlt⟩
              · exact .inl (.inr hsecond)
              · exact .inr ⟨hroom, Nat.lt_of_le_of_lt hbefore hlt⟩

private theorem solve_harmless
    (H : ∀ A path c σ, σ.kept.memo.Lenient → (check store room A path c σ).2.kept.memo.Lenient)
    (hc : c.Harmless) (h : σ.kept.memo.Lenient) :
    ((store.goal c).solve (check store room) A path σ).1 = .success ∨
      room = 0 ∧ σ.kept.ceilingHits <
        ((store.goal c).solve (check store room) A path σ).2.kept.ceilingHits := by
  rcases store.goal_of_harmless hc with hgoal | ⟨ts, hts, hgoal⟩
  · rw [hgoal]
    exact .inl rfl
  · rw [hgoal]
    exact solve_any_same H (List.mem_map.mpr ⟨c.sup, hts, rfl⟩) h

/-- A check keeps no harmless constraint as a failure, and fails at one only where there is hardly any
room, and meets the limit then. -/
theorem check_lenient (A : Assumptions) (path : Path) (c : Constraint) (σ : Progress Kept)
    (h : σ.kept.memo.Lenient) :
    (check store room A path c σ).2.kept.memo.Lenient ∧
      (c.Harmless → (check store room A path c σ).1 = .success ∨
        room ≤ 1 ∧ σ.kept.ceilingHits < (check store room A path c σ).2.kept.ceilingHits) := by
  induction room, A, path, c, σ using check_induct store with
  | memo room A path c σ o hc =>
      refine ⟨h, fun hharmless => ?_⟩
      cases o with
      | success => exact .inl rfl
      | failure f => exact absurd hharmless (h c f hc)
  | assumed room A path c σ hc hA => exact ⟨h, fun _ => .inl rfl⟩
  | ceiling A path c σ hc hA => exact ⟨h, fun _ => .inr ⟨Nat.zero_le 1, Nat.lt_succ_self _⟩⟩
  | settled room A path c σ hc hA ih r hhits =>
      have hkeeps := fun A path c σ h => (ih A path c σ h).1
      have hsuccess : c.Harmless → r.1 = .success := by
        intro hharmless
        exact (solve_harmless hkeeps hharmless h).resolve_right
          fun hlt => Nat.ne_of_gt hlt.2 hhits
      refine ⟨(solve_lenient hkeeps (store.goal c) h).insert fun hharmless => ?_,
        fun hharmless => .inl (hsuccess hharmless)⟩
      rw [hsuccess hharmless]
      rfl
  | tainted room A path c σ hc hA ih r hhits =>
      have hkeeps := fun A path c σ h => (ih A path c σ h).1
      refine ⟨solve_lenient hkeeps (store.goal c) h, fun hharmless => ?_⟩
      exact (solve_harmless hkeeps hharmless h).imp_right fun ⟨hroom, hlt⟩ => ⟨by omega, hlt⟩

end Lenient

section Clean

theorem check_zero_memo (A : Assumptions) (path : Path) (c : Constraint) (σ : Progress Kept) :
    (check store 0 A path c σ).2.kept.memo = σ.kept.memo := by
  cases hmemo : σ.kept.memo.get? c with
  | some o => rw [check_of_memo hmemo]
  | none =>
      by_cases hA : c ∈ A
      · rw [check_of_assumed hmemo hA]
      · rw [check_zero hmemo hA]

theorem solve_zero_memo (g : Goal) (A : Assumptions) (path : Path) (σ : Progress Kept) :
    (g.solve (check store 0) A path σ).2.kept.memo = σ.kept.memo := by
  refine Goal.solve_advances
    (R := fun (_ : Assumptions) (σ τ : Progress Kept) => τ.kept.memo = σ.kept.memo)
    ?_ ?_ ?_ check_zero_memo g A path σ
  · exact fun _ _ => rfl
  · intro _ _ _ _ hστ hτυ
    exact hτυ.trans hστ
  · exact fun _ _ _ _ _ _ hστ => hστ

theorem check_clean (hroom : room ≤ 1) (h : σ.kept.memo.Clean)
    (hsuccess : (check store room A path c σ).1 = .success) :
    (check store room A path c σ).2.kept.memo.Clean := by
  cases hmemo : σ.kept.memo.get? c with
  | some o =>
      rw [check_of_memo hmemo]
      exact h
  | none =>
      by_cases hA : c ∈ A
      · rw [check_of_assumed hmemo hA]
        exact h
      · match room, hroom with
        | 0, _ =>
            rw [check_zero hmemo hA] at hsuccess
            exact nomatch hsuccess
        | 1, _ =>
            rw [check_succ hmemo hA] at hsuccess ⊢
            dsimp only at hsuccess ⊢
            split at hsuccess
            next hhits =>
              rw [if_pos hhits, hsuccess]
              dsimp only
              rw [solve_zero_memo]
              exact h.insert c
            next hhits =>
              rw [if_neg hhits, solve_zero_memo]
              exact h

private theorem check_zero_fails {m : Memo} (hm : m.Clean) (A : Assumptions) (path : Path)
    (c : Constraint) (σ : Progress Kept) (h : σ.kept.memo = m) :
    EndsIn (fun kept => kept.memo = m) (fun f => f.reason = .depthExceeded) path
      (check store 0 A path c σ) := by
  refine ⟨(check_zero_memo A path c σ).trans h, fun f hf => ?_⟩
  cases hmemo : σ.kept.memo.get? c with
  | some o =>
      cases o with
      | success =>
          rw [check_of_memo hmemo] at hf
          exact nomatch hf
      | failure f' =>
          rw [h] at hmemo
          exact absurd hmemo (hm c f')
  | none =>
      by_cases hA : c ∈ A
      · rw [check_of_assumed hmemo hA] at hf
        exact nomatch hf
      · rw [check_zero hmemo hA] at hf
        obtain rfl := Outcome.failure.inj hf
        exact ⟨⟨.depthExceeded, []⟩, rfl, (Failure.after_mk_nil path _).symm⟩

/-- If a harmless constraint fails, it is for want of room, except that with room for its alternatives
alone the first one of them may have failed before. -/
theorem depthExceeded_of_harmless (hc : c.Harmless) (hlenient : σ.kept.memo.Lenient)
    (hclean : room ≤ 1 → σ.kept.memo.Clean) {f : Failure}
    (hf : (check store room A path c σ).1 = .failure f) : f.reason = .depthExceeded := by
  cases hmemo : σ.kept.memo.get? c with
  | some o =>
      rw [check_of_memo hmemo] at hf
      cases o with
      | success => exact nomatch hf
      | failure f' => exact absurd hc (hlenient c f' hmemo)
  | none =>
      by_cases hA : c ∈ A
      · rw [check_of_assumed hmemo hA] at hf
        exact nomatch hf
      · match room, hclean with
        | 0, _ =>
            rw [check_zero hmemo hA] at hf
            obtain rfl := Outcome.failure.inj hf
            rfl
        | 1, hclean =>
            rw [check_succ hmemo hA] at hf
            have hsolve : ((store.goal c).solve (check store 0) (c :: A)
                (path ++ [.types c]) σ).1 = .failure f := by
              dsimp only at hf
              split at hf <;> exact hf
            have hends : EndsIn (fun kept => kept.memo = σ.kept.memo)
                ((store.goal c).Fails fun _ f => f.reason = .depthExceeded) (path ++ [.types c])
                ((store.goal c).solve (check store 0) (c :: A) (path ++ [.types c]) σ) :=
              Goal.solve_fails (check_zero_fails (hclean (Nat.le_refl 1))) _ _ _ σ rfl
            obtain ⟨f', hf', rfl⟩ := hends.failure f hsolve
            rcases store.goal_of_harmless hc with hgoal | ⟨ts, hts, hgoal⟩
            · rw [hgoal] at hf'
              exact hf'.elim
            · rw [hgoal] at hf'
              rcases Goal.fails_any_map hf' with ⟨hnil, _⟩ | ⟨t, _, hf'⟩
              · rw [hnil] at hts
                exact absurd hts List.not_mem_nil
              · exact hf'
        | room + 2, _ =>
            rcases (check_lenient A path c σ hlenient).2 hc with hsuccess | ⟨hroom, _⟩
            · rw [hsuccess] at hf
              exact nomatch hf
            · omega

end Clean

/-- How a constraint can fail after nothing but successes. -/
def Store.FailsInEarnest (store : Store) (room : Nat) (c : Constraint) (f : Failure) : Prop :=
  store.FailsAs room c f ∧ (f.reason ≠ .depthExceeded → ¬c.Harmless)

/-- What is in memory after nothing but successes with so much room. -/
structure Kept.Untroubled (store : Store) (room : Nat) (kept : Kept) : Prop where
  explained : kept.Explained store
  lenient : kept.memo.Lenient
  clean : room ≤ 1 → kept.memo.Clean

theorem Kept.untroubled_new (store : Store) (room : Nat) : Kept.Untroubled store room {} where
  explained _ _ h := nomatch h
  lenient _ _ h := nomatch h
  clean _ _ _ h := nomatch h

theorem check_failsInEarnest (A : Assumptions) (path : Path) (c : Constraint) (σ : Progress Kept)
    (h : σ.kept.Untroubled store room) :
    EndsFirst (Kept.Untroubled store room) (store.FailsInEarnest room c) path
      (check store room A path c σ) := by
  have hends : EndsIn (Kept.Explained store) (store.FailsAs room c) path
      (check store room A path c σ) := check_explained A path c σ h.explained
  refine ⟨fun hsuccess => ⟨hends.kept, (check_lenient A path c σ h.lenient).1,
    fun hroom => check_clean hroom (h.clean hroom) hsuccess⟩, fun f hf => ?_⟩
  obtain ⟨f', hf', rfl⟩ := hends.failure f hf
  refine ⟨f', ⟨hf', fun hdeep hharmless => ?_⟩, rfl⟩
  have hreason : (f'.after path).reason = .depthExceeded :=
    depthExceeded_of_harmless hharmless h.lenient h.clean hf
  exact hdeep hreason

end Subtyping
