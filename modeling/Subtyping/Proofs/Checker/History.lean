import Subtyping.Proofs.Checker.Session
import Subtyping.Proofs.Checker.Success

/-!
# What earlier questions leave behind

A success in memory may rest on a constraint that was taken to hold and then failed. So a success can
be wrong, and a question can get another answer than a new checker would give it. Nothing else can
make it so: as long as all that was taken to hold ends up as a success in memory, successes are right
(`holds_of_granted`) and answers do not depend on earlier questions.
-/

namespace Subtyping

/-- What is kept of a watched check after some questions. -/
def watchAll (store : Store) (room : Nat) : List Constraint → Progress Watched → Progress Watched
  | [], σ => σ
  | c :: cs, σ => watchAll store room cs (watch store room [] [] c σ).2

namespace Checker

/-- The constraints that a checker took to hold during some questions because they were being
checked further up the path. -/
def granted (k : Checker) (store : Store) (supply : FreshSupply) (cs : List Constraint) :
    List Constraint :=
  (watchAll store (k.maxDepth - k.depth) cs ⟨supply, ⟨k.kept, []⟩⟩).kept.granted

/-- All that a checker took to hold during some questions is a success in its memory in the end. -/
def MakesGood (k : Checker) (store : Store) (supply : FreshSupply) (cs : List Constraint) : Prop :=
  ∀ g ∈ k.granted store supply cs,
    (k.askAll store supply cs).1.kept.memo.get? g = some .success

instance (k : Checker) (store : Store) (supply : FreshSupply) (cs : List Constraint) :
    Decidable (k.MakesGood store supply cs) :=
  inferInstanceAs (Decidable (∀ g ∈ k.granted store supply cs,
    (k.askAll store supply cs).1.kept.memo.get? g = some .success))

theorem isSubtype_eq_watch (k : Checker) (store : Store) (c : Constraint) {σ : Progress Watched}
    (hσ : σ.kept.kept = k.kept) :
    k.isSubtype store σ.supply c.sub c.sup =
      let r := watch store (k.maxDepth - k.depth) [] [] c σ
      (r.1, { k with kept := r.2.kept.kept }, r.2.supply) := by
  have hstart : (⟨σ.supply, k.kept⟩ : Progress Kept) = σ.map Watched.kept := by
    rw [← hσ]
    rfl
  unfold isSubtype checkAt
  rw [hstart, check_eq_watch]
  rfl

theorem askAll_eq_watchAll (k : Checker) (store : Store) (cs : List Constraint)
    {σ : Progress Watched} (hσ : σ.kept.kept = k.kept) :
    k.askAll store σ.supply cs =
      ({ k with kept := (watchAll store (k.maxDepth - k.depth) cs σ).kept.kept },
        (watchAll store (k.maxDepth - k.depth) cs σ).supply) := by
  induction cs generalizing k σ with
  | nil => rw [askAll, watchAll, hσ]
  | cons c cs ih =>
      rw [askAll, k.isSubtype_eq_watch store c hσ]
      exact ih { k with kept := (watch store (k.maxDepth - k.depth) [] [] c σ).2.kept.kept } rfl

end Checker

section Run

variable {store : Store} (room : Nat) {s₀ : FreshSupply} {E : Assumptions} {σ : Progress Watched}

private theorem ask_succeedsRightly (hstore : s₀.Above store.vars) {c : Constraint}
    (hc : s₀.Above c.vars) (hl : Later s₀ [] σ.supply E) (hplaced : Placed σ) :
    SucceedsRightly store E σ (watch store room [] [] c σ) fun n s E => Holds store false n s E c := by
  have habove : s₀.Above (store.vars ++ c.vars) := hstore.append hc
  -- whatever was assumed before, nothing is assumed about the variables of the question
  have hscope : Scope store (store.vars ++ c.vars) E [] σ.supply := by
    refine ⟨List.subset_append_left _ _, habove.of_le hl.le, hl.after, fun e he hvs => ?_⟩
    exact (hl.agree e fun v hv => habove v (hvs hv)).mpr he
  exact watch_succeedsRightly [] [] c σ _ E hscope (fun a ha => absurd ha List.not_mem_nil)
    (List.subset_append_right _ _) hplaced

theorem watchAll_extends (cs : List Constraint) (σ : Progress Watched) :
    Extends σ (watchAll store room cs σ) := by
  induction cs generalizing σ with
  | nil => exact .refl σ
  | cons c cs ih => exact (watch_extends [] [] c σ).trans (ih _)

private theorem watchAll_succeedsRightly (hstore : s₀.Above store.vars) {cs : List Constraint}
    (hcs : ∀ c ∈ cs, s₀.Above c.vars) (hl : Later s₀ [] σ.supply E) (hplaced : Placed σ) :
    ∃ E', Later σ.supply E (watchAll store room cs σ).supply E' ∧
      Placed (watchAll store room cs σ) ∧ ∀ n, Vouched store n E' (watchAll store room cs σ) →
        SuccessesHold store (n + 1) E σ →
          SuccessesHold store (n + 1) E' (watchAll store room cs σ) := by
  induction cs generalizing σ E with
  | nil => exact ⟨E, .refl hl.after, hplaced, fun _ _ hmemo => hmemo⟩
  | cons c cs ih =>
      obtain ⟨hc, hcs⟩ := List.forall_mem_cons.mp hcs
      obtain ⟨E₁, hl₁, hplaced₁, hright₁⟩ := ask_succeedsRightly room hstore hc hl hplaced
      obtain ⟨E₂, hl₂, hplaced₂, hright₂⟩ := ih hcs (hl.trans hl₁) hplaced₁
      refine ⟨E₂, hl₁.trans hl₂, hplaced₂, fun n hvouched hmemo => hright₂ n hvouched ?_⟩
      have hvouched₁ := hvouched.earlier (watchAll_extends room cs _) hplaced₁
        (hstore.of_le (hl.trans hl₁).le) hl₂
      exact (hright₁ n hvouched₁).1 hmemo

theorem watchAll_append (cs ds : List Constraint) (σ : Progress Watched) :
    watchAll store room (cs ++ ds) σ = watchAll store room ds (watchAll store room cs σ) := by
  induction cs generalizing σ with
  | nil => rfl
  | cons c cs ih => exact ih _

/-- If all that was taken to hold is a success in memory in the end, all successes are right. -/
theorem holds_of_granted (hstore : s₀.Above store.vars) {cs : List Constraint} {c : Constraint}
    (hcs : ∀ d ∈ cs, s₀.Above d.vars) (hc : s₀.Above c.vars)
    (htrust : ∀ g ∈ (watchAll store room (cs ++ [c]) ⟨s₀, {}⟩).kept.granted,
      (watchAll store room (cs ++ [c]) ⟨s₀, {}⟩).kept.kept.memo.get? g = some .success)
    (hsuccess : (watch store room [] [] c (watchAll store room cs ⟨s₀, {}⟩)).1 = .success)
    (n : Nat) : Holds store false n s₀ [] c := by
  rw [watchAll_append] at htrust
  have hstart : Later s₀ [] s₀ [] := .refl fun e he => absurd he List.not_mem_nil
  have hempty : Placed ⟨s₀, {}⟩ := by
    rintro d (hd | hd)
    · exact nomatch hd
    · exact absurd hd List.not_mem_nil
  obtain ⟨E₁, hl₁, hplaced₁, hmemo₁⟩ := watchAll_succeedsRightly room hstore hcs hstart hempty
  generalize watchAll store room cs ⟨s₀, {}⟩ = σ at htrust hsuccess hl₁ hplaced₁ hmemo₁
  obtain ⟨E₂, hl₂, hplaced₂, hright₂⟩ := ask_succeedsRightly room hstore hc hl₁ hplaced₁
  have hvouched : ∀ n, SuccessesHold store n E₂ (watch store room [] [] c σ).2 →
      Vouched store n E₂ (watch store room [] [] c σ).2 :=
    fun n hmemo => ⟨hmemo, fun g hg => hmemo g (htrust g hg)⟩
  -- one level after the other: what holds to `n` levels in the end makes it hold to one more
  have hall : ∀ n, SuccessesHold store n E₂ (watch store room [] [] c σ).2 := by
    intro n
    induction n with
    | zero => exact fun _ _ => trivial
    | succ n ih =>
        have hbefore : Vouched store n E₁ σ :=
          (hvouched n ih).earlier (watch_extends [] [] c σ) hplaced₁ (hstore.of_le hl₁.le) hl₂
        exact (hright₂ n (hvouched n ih)).1 (hmemo₁ n hbefore fun d hd => nomatch hd)
  have hlast := (hright₂ n (hvouched n (hall n))).2 hsuccess
  exact ((hl₁.trans hl₂).holds_iff hstore hc).mpr hlast

end Run

section Answers

variable {store : Store} {supply : FreshSupply} {c : Constraint}

theorem holdsTo_of_makesGood {maxDepth : Nat} {asked : List Constraint}
    (hstore : supply.Above store.vars) (hasked : ∀ d ∈ asked ++ [c], supply.Above d.vars)
    (hgood : ({ maxDepth } : Checker).MakesGood store supply (asked ++ [c])) :
    let s := ({ maxDepth } : Checker).askAll store supply asked
    let r := s.1.isSubtype store s.2 c.sub c.sup
    r.1 = .success → ∀ n, HoldsTo store supply n c := by
  intro s r hsuccess n
  have hbefore : ∀ d ∈ asked, supply.Above d.vars :=
    fun d hd => hasked d (List.mem_append_left [c] hd)
  have hc : supply.Above c.vars := hasked c (List.mem_append_right _ (List.mem_singleton_self c))
  have hwatch : ∀ cs : List Constraint, ({ maxDepth } : Checker).askAll store supply cs =
      ({ maxDepth, kept := (watchAll store maxDepth cs ⟨supply, {}⟩).kept.kept },
        (watchAll store maxDepth cs ⟨supply, {}⟩).supply) := by
    intro cs
    exact Checker.askAll_eq_watchAll (σ := ⟨supply, {}⟩) { maxDepth } store cs rfl
  have hwatched : (watch store maxDepth [] [] c (watchAll store maxDepth asked ⟨supply, {}⟩)).1 =
      .success := by
    have hs : s = _ := hwatch asked
    change (s.1.isSubtype store s.2 c.sub c.sup).1 = .success at hsuccess
    rw [hs, Checker.isSubtype_eq_watch _ store c rfl] at hsuccess
    exact hsuccess
  unfold Checker.MakesGood at hgood
  rw [hwatch] at hgood
  rw [holdsTo_iff hstore hc]
  exact holds_of_granted maxDepth hstore hbefore hc hgood hwatched n

private theorem exists_not_holdsTo_of_isSubtype {maxDepth : Nat} {s : FreshSupply}
    (asked : List Constraint) (hs : s.Above store.vars)
    (hasked : ({ maxDepth } : Checker).Admits store s (asked ++ [c]))
    (hstore : supply.Above store.vars) (hc : supply.Above c.vars) :
    let k := ({ maxDepth } : Checker).askAll store s asked
    let r := k.1.isSubtype store k.2 c.sub c.sup
    r.2.1.kept.ceilingHits = 0 → r.1 ≠ .success → ∃ n, ¬HoldsTo store supply n c := by
  intro k r hhits hfails
  obtain ⟨hstore', hc', _, hfail⟩ := askAll_isSubtype_failsRightly hs hasked
  have hle : k.1.kept.ceilingHits ≤ r.2.1.kept.ceilingHits :=
    (k.1.isSubtype_advances store k.2 c).hits
  have hsame : r.2.1.kept.ceilingHits = k.1.kept.ceilingHits := by omega
  obtain ⟨n, hn⟩ := (hfail hfails hsame).exists_not_holdsTo hstore' hc'
  exact ⟨n, hn supply hstore hc⟩

private theorem holdsTo_iff_of_above {n : Nat} {s s' : FreshSupply} (hstore : s.Above store.vars)
    (hstore' : s'.Above store.vars) (hc : s.Above c.vars) (hc' : s'.Above c.vars) :
    HoldsTo store s n c ↔ HoldsTo store s' n c := by
  rw [holdsTo_iff hstore hc, holdsTo_iff hstore' hc', holds_iff_of_above hstore hstore' hc hc']

/-- A new checker answers a question with success. The rules refute it at no level if and only if they
do so at none when the constraints on the path are taken to hold and nothing is kept, so a success can
only be wrong by what was in memory. It is right if the checker makes good on all that it took to
hold. -/
theorem holdsTo_of_isSubtype {maxDepth : Nat} (hstore : supply.Above store.vars)
    (hc : supply.Above c.vars)
    (hsuccess : (({ maxDepth } : Checker).isSubtype store supply c.sub c.sup).1 = .success) :
    ((∀ n, HoldsTo store supply n c) ↔ ∀ n, HoldsAlong store supply n c) ∧
      (({ maxDepth } : Checker).MakesGood store supply [c] → ∀ n, HoldsTo store supply n c) := by
  constructor
  · exact forall_congr' fun n => (holdsAlong_iff_holdsTo hstore hc).symm
  · intro hgood
    have hone : ∀ d ∈ ([] : List Constraint) ++ [c], supply.Above d.vars := by simpa using hc
    exact holdsTo_of_makesGood hstore hone hgood hsuccess

/-- Three interfaces with a method `4` that gives the third, the second and the first in this order, and
a method `5` that the first lacks. -/
def crossed : Store where
  templates := [
    (.interface, { name := ⟨1⟩, methods := [⟨⟨4⟩, [{ result := .name ⟨3⟩ .interface [] }]⟩] }),
    (.interface, { name := ⟨2⟩, methods := [⟨⟨4⟩, [{ result := .name ⟨2⟩ .interface [] }]⟩,
      ⟨⟨5⟩, [{ result := .nil }]⟩] }),
    (.interface, { name := ⟨3⟩, methods := [⟨⟨4⟩, [{ result := .name ⟨1⟩ .interface [] }]⟩,
      ⟨⟨5⟩, [{ result := .nil }]⟩] })]

def crossedAt (n : UInt32) : Ty := .name ⟨n⟩ .interface []

/-- The second is taken to be below the first while the second is checked against the third, and turns
out to be. -/
theorem holdsTo_of_isSubtype_crossed :
    (({} : Checker).isSubtype crossed {} (crossedAt 2) (crossedAt 1)).1 = .success ∧
      ({} : Checker).granted crossed {} [⟨crossedAt 2, crossedAt 1⟩] =
        [⟨crossedAt 2, crossedAt 1⟩] ∧
      ∀ n, HoldsTo crossed {} n ⟨crossedAt 2, crossedAt 1⟩ := by
  have hsuccess : (({} : Checker).isSubtype crossed {} (crossedAt 2) (crossedAt 1)).1 = .success := by
    decide +kernel
  have hgood : ({} : Checker).MakesGood crossed {} [⟨crossedAt 2, crossedAt 1⟩] := by
    decide +kernel
  have hholds := holdsTo_of_isSubtype (c := ⟨crossedAt 2, crossedAt 1⟩) (by decide +kernel)
    (by decide +kernel) hsuccess
  exact ⟨hsuccess, by decide +kernel, hholds.2 hgood⟩

/-- The first is taken to be below the second while the third is checked against the second, which
succeeds and is kept. Then the first turns out not to be, for lack of a method, and the union still
gets through by its other member. -/
theorem not_holdsTo_of_isSubtype_crossed :
    ({} : FreshSupply).Above crossed.vars ∧
      (({} : Checker).isSubtype crossed {} (.union [crossedAt 1, crossedAt 3]) (crossedAt 2)).1 =
        .success ∧
      ¬HoldsTo crossed {} 3 ⟨.union [crossedAt 1, crossedAt 3], crossedAt 2⟩ := by
  decide +kernel

/-- One checker was asked some questions before, the other is new, and neither meets its depth limit.
They agree about a question if and only if they agree whether to answer it with a success that some
number of levels of rules refutes. They agree if both make good on what they took to hold. -/
theorem success_iff_success_iff {maxDepth maxDepth' : Nat} {supply' : FreshSupply}
    {asked : List Constraint} (hstore : supply.Above store.vars)
    (hstore' : supply'.Above store.vars) (hasked : ∀ d ∈ asked ++ [c], supply.Above d.vars)
    (hc' : supply'.Above c.vars) :
    let s := ({ maxDepth } : Checker).askAll store supply asked
    let r := s.1.isSubtype store s.2 c.sub c.sup
    let r' := Checker.isSubtype { maxDepth := maxDepth' } store supply' c.sub c.sup
    r.2.1.kept.ceilingHits = 0 → r'.2.1.kept.ceilingHits = 0 →
      ((r.1 = .success ↔ r'.1 = .success) ↔
        ((r.1 = .success ∧ ∃ n, ¬HoldsTo store supply n c) ↔
          (r'.1 = .success ∧ ∃ n, ¬HoldsTo store supply n c))) ∧
      (({ maxDepth } : Checker).MakesGood store supply (asked ++ [c]) →
        ({ maxDepth := maxDepth' } : Checker).MakesGood store supply' [c] →
          (r.1 = .success ↔ r'.1 = .success)) := by
  intro s r r' hhits hhits'
  have hc : supply.Above c.vars := hasked c (List.mem_append_right _ (List.mem_singleton_self c))
  have hrefuted : r.1 ≠ .success → ∃ n, ¬HoldsTo store supply n c :=
    exists_not_holdsTo_of_isSubtype asked hstore (Checker.admits_of_above hasked) hstore hc hhits
  have hrefuted' : r'.1 ≠ .success → ∃ n, ¬HoldsTo store supply n c :=
    exists_not_holdsTo_of_isSubtype [] hstore' ⟨hc', trivial⟩ hstore hc hhits'
  constructor
  · by_cases hr : r.1 = .success <;> by_cases hr' : r'.1 = .success
    · simp [hr, hr']
    · simp [hr, hr', hrefuted' hr']
    · simp [hr, hr', hrefuted hr]
    · simp [hr, hr']
  · intro hgood hgood'
    constructor
    · intro hr
      by_contra hr'
      obtain ⟨n, hn⟩ := hrefuted' hr'
      exact hn (holdsTo_of_makesGood hstore hasked hgood hr n)
    · intro hr'
      by_contra hr
      obtain ⟨n, hn⟩ := hrefuted hr
      have hone : ∀ d ∈ ([] : List Constraint) ++ [c], supply'.Above d.vars := by simpa using hc'
      have hholds := holdsTo_of_makesGood hstore' hone hgood' hr' n
      exact hn ((holdsTo_iff_of_above hstore hstore' hc hc').mpr hholds)

/-- A question that came up when another one was asked gets the same answer again. -/
theorem success_iff_success_crossed :
    let s := ({} : Checker).askAll crossed {} [⟨crossedAt 2, crossedAt 1⟩]
    let r := s.1.isSubtype crossed s.2 (crossedAt 2) (crossedAt 3)
    let r' := ({} : Checker).isSubtype crossed {} (crossedAt 2) (crossedAt 3)
    r.2.1.kept.ceilingHits = 0 ∧ r'.2.1.kept.ceilingHits = 0 ∧
      (r.1 = .success ↔ r'.1 = .success) := by
  intro s r r'
  have hhits : r.2.1.kept.ceilingHits = 0 := by decide +kernel
  have hhits' : r'.2.1.kept.ceilingHits = 0 := by decide +kernel
  have hstore : ({} : FreshSupply).Above crossed.vars := by decide +kernel
  have hasked : ∀ d ∈ [⟨crossedAt 2, crossedAt 1⟩] ++ [⟨crossedAt 2, crossedAt 3⟩],
      ({} : FreshSupply).Above (Constraint.vars d) := by
    decide +kernel
  have hagree := success_iff_success_iff hstore hstore hasked (by decide +kernel) hhits hhits'
  exact ⟨hhits, hhits', hagree.2 (by decide +kernel) (by decide +kernel)⟩

/-- Asked before whether the first is below the second, the checker has it from memory that the third
is, which a new checker denies. -/
theorem not_success_iff_success_crossed :
    let s := ({} : Checker).askAll crossed {} [⟨crossedAt 1, crossedAt 2⟩]
    let r := s.1.isSubtype crossed s.2 (crossedAt 3) (crossedAt 2)
    let r' := ({} : Checker).isSubtype crossed {} (crossedAt 3) (crossedAt 2)
    ({} : FreshSupply).Above crossed.vars ∧ r.2.1.kept.ceilingHits = 0 ∧
      r'.2.1.kept.ceilingHits = 0 ∧ r.1 = .success ∧ r'.1 ≠ .success := by
  decide +kernel

end Answers

end Subtyping
