import Subtyping.Checker
import Subtyping.Proofs.Goal.Solve
import Subtyping.Proofs.Params.Fits

/-!
# Calls through another signature

When the check of two signatures succeeds, which calls of the one does the other take? The check
compares the shapes of the parameter lists but neither the numbers of positional arguments that the
two sides ask for nor, where only one side takes all other keywords, the keywords, and it asks
whether both sides take a block but not whether a call may leave it out. Nothing else can stand in the
way of a call (`accepts_iff_suits`).
-/

namespace Subtyping.Signature

theorem fits_of_solve {κ : Type} {decide : Decision κ} {assumed : Assumptions} {path : Path}
    {σ : Progress κ} {name : Atom} {sub sup : Signature}
    (h : ((Goal.signature name sub sup).solve decide assumed path σ).1 = .success) :
    sub.params.Fits sup.params ∧ sub.block.isSome = sup.block.isSome := by
  constructor
  · obtain ⟨τ, hparams⟩ := Goal.exists_solve_eq_success_of_all h (g := Goal.params name sub.params
      sup.params) (by simp)
    rw [← Params.pairs?_ne_none_iff]
    intro hnone
    rw [Goal.params, hnone] at hparams
    exact absurd hparams (by simp [Goal.solve])
  · obtain ⟨τ, hblock⟩ := Goal.exists_solve_eq_success_of_all h
      (g := Goal.blockGiven name sub.block sup.block) (by simp)
    apply Decidable.byContradiction
    intro hne
    rw [Goal.blockGiven, if_neg hne] at hblock
    exact absurd hblock (by simp [Goal.solve])

/-- What a call must do besides being taken by one signature to be taken by another that fits. -/
structure Suits (sub sup : Signature) (call : CallShape) (blockGiven : Bool) : Prop where
  enough : sub.params.required.length ≤ call.positional
  known : ∀ k ∈ call.keywords, k ∉ Assoc.keys sup.params.namedKeywords →
    sub.params.keyword? k ≠ none
  needed : ∀ b ∈ sub.block, b.optional = false → blockGiven = true

theorem accepts_iff_suits {sub sup : Signature} (hfits : sub.params.Fits sup.params)
    (hblock : sub.block.isSome = sup.block.isSome) {call : CallShape} {blockGiven : Bool}
    (h : sup.Accepts call blockGiven) :
    sub.Accepts call blockGiven ↔ sub.Suits sup call blockGiven := by
  constructor
  · intro hsub
    exact ⟨hsub.params.enough, fun k hk _ => hsub.params.known k hk, hsub.needed⟩
  · intro hsuits
    refine ⟨hfits.accepts h.params hsuits.enough hsuits.known, fun hgiven => ?_, hsuits.needed⟩
    have hsup := h.taken hgiven
    rw [← Option.isSome_iff_ne_none] at hsup ⊢
    rwa [hblock]

/-- The call with no argument that may be left out besides some keywords. -/
def leastCall (m : Signature) (extra : List Atom) : CallShape :=
  ⟨m.params.required.length, extra ++ Assoc.keys m.params.requiredKeywords⟩

/-- Whether a call must give a block. -/
def needsBlock (m : Signature) : Bool := m.block.any fun b => !b.optional

theorem needsBlock_eq_true_iff (m : Signature) :
    m.needsBlock = true ↔ ∃ b ∈ m.block, b.optional = false := by
  rw [needsBlock]
  cases m.block <;> simp

theorem accepts_leastCall (m : Signature) {extra : List Atom}
    (h : ∀ k ∈ extra, m.params.keyword? k ≠ none) :
    m.Accepts (m.leastCall extra) m.needsBlock where
  params := by
    have hcall := Params.accepts_callWith (p := m.params) (n := 0) (fun _ => Nat.zero_le _) h
    rwa [Params.callWith, Nat.zero_max] at hcall
  taken hneeds hnone := by
    obtain ⟨b, hb, _⟩ := m.needsBlock_eq_true_iff.mp hneeds
    rw [hnone] at hb
    exact absurd hb (Option.not_mem_none b)
  needed b hb ho := m.needsBlock_eq_true_iff.mpr ⟨b, hb, ho⟩

/-- When the check of two signatures succeeds, a call that the expected one takes is taken by the
other if it suits it, and all of them do if the other asks for no more positional arguments and for
no block where the expected one does not, and takes every keyword that the expected one takes. -/
theorem accepts_of_check {store : Store} {room : Nat} {assumed : Assumptions} {path : Path}
    {σ : Progress Kept} {name : Atom} {sub sup : Signature}
    (h : ((Goal.signature name sub sup).solve (check store room) assumed path σ).1 = .success) :
    (∀ call blockGiven, sup.Accepts call blockGiven →
      (sub.Accepts call blockGiven ↔ sub.Suits sup call blockGiven)) ∧
    ((∀ call blockGiven, sup.Accepts call blockGiven → sub.Accepts call blockGiven) ↔
      sub.params.required.length ≤ sup.params.required.length ∧
        (∀ k, sup.params.keyword? k ≠ none → sub.params.keyword? k ≠ none) ∧
        (sub.needsBlock = true → sup.needsBlock = true)) := by
  obtain ⟨hfits, hblock⟩ := fits_of_solve h
  refine ⟨fun call blockGiven hsup => accepts_iff_suits hfits hblock hsup, ?_⟩
  constructor
  · intro hall
    have hno : ∀ k ∈ ([] : List Atom), sup.params.keyword? k ≠ none := by simp
    have hleast := hall _ _ (sup.accepts_leastCall hno)
    refine ⟨hleast.params.enough, fun k hk => ?_, fun hneeds => ?_⟩
    · have hone : ∀ l ∈ [k], sup.params.keyword? l ≠ none := by simpa using hk
      have hcall := hall _ _ (sup.accepts_leastCall hone)
      exact hcall.params.known k (List.mem_append_left _ (List.mem_singleton_self k))
    · obtain ⟨b, hb, ho⟩ := sub.needsBlock_eq_true_iff.mp hneeds
      exact hleast.needed b hb ho
  · rintro ⟨hcount, hkeywords, hneeds⟩ call blockGiven hsup
    refine (accepts_iff_suits hfits hblock hsup).mpr ⟨?_, fun k hk _ => ?_, fun b hb ho => ?_⟩
    · exact Nat.le_trans hcount hsup.params.enough
    · exact hkeywords k (hsup.params.known k hk)
    · obtain ⟨c, hc, hco⟩ := sup.needsBlock_eq_true_iff.mp
        (hneeds (sub.needsBlock_eq_true_iff.mpr ⟨b, hb, ho⟩))
      exact hsup.needed c hc hco

/-- A signature of which only the calls matter. -/
def ofShape (p : Params Ty) (b : Option Block) : Signature :=
  { params := p, block := b, result := .any }

/-- One required and one optional argument against two optional ones: the call with one argument is
taken by both. -/
theorem accepts_of_check_one_optional :
    ((Goal.signature .none (ofShape { required := [.any], optional := [.any] } none)
      (ofShape { optional := [.any, .any] } none)).solve (check {} 1) [] [] ⟨{}, {}⟩).1 = .success ∧
    (Accepts (ofShape { required := [.any], optional := [.any] } none) ⟨1, []⟩ false ↔
      Suits (ofShape { required := [.any], optional := [.any] } none)
        (ofShape { optional := [.any, .any] } none) ⟨1, []⟩ false) := by
  have h : ((Goal.signature .none (ofShape { required := [.any], optional := [.any] } none)
      (ofShape { optional := [.any, .any] } none)).solve (check {} 1) [] [] ⟨{}, {}⟩).1 =
        .success := by
    decide +kernel
  exact ⟨h, (accepts_of_check h).1 ⟨1, []⟩ false (by decide)⟩

/-- A new checker lets one signature stand for another that takes a call which the first does not. -/
def Misses (sub sup : Signature) (call : CallShape) (blockGiven : Bool) : Prop :=
  ((Goal.signature .none sub sup).solve (check {} 1) [] [] ⟨{}, {}⟩).1 = .success ∧
    sup.Accepts call blockGiven ∧ ¬sub.Accepts call blockGiven

instance (sub sup : Signature) (call : CallShape) (blockGiven : Bool) :
    Decidable (Misses sub sup call blockGiven) :=
  inferInstanceAs (Decidable (_ ∧ _))

/-- Each of the three things that are not compared makes the check miss a call: one without arguments
where one is required before the rest slot, one with a keyword that only the expected slot for all
other keywords takes, and one without a block where only the expected block may be left out. -/
theorem not_accepts_of_check :
    Misses (ofShape { required := [.any], rest := some .any } none)
        (ofShape { rest := some .any } none) ⟨0, []⟩ false ∧
      Misses (ofShape {} none) (ofShape { restKeywords := some .any } none) ⟨0, [⟨1⟩]⟩ false ∧
      Misses (ofShape {} (some ⟨{}, .any, false⟩)) (ofShape {} (some ⟨{}, .any, true⟩)) ⟨0, []⟩
        false := by
  decide +kernel

end Subtyping.Signature
