import Subtyping.Proofs.Unfolding.Holds

/-!
# Scopes

While a goal is solved only some variables can come up: those that were there when it was asked and
those that were made for it since. A scope says that among all equalities between variables that were
ever assumed, those about its own variables are assumed.
-/

namespace Subtyping

/-- Whatever equality between variables of the scope there is, it is assumed. -/
structure Scope (store : Store) (vs : List TypeVar) (E A : Assumptions) (s : FreshSupply) : Prop where
  store : store.vars ⊆ vs
  above : s.Above vs
  before : ∀ e ∈ E, s.Above e.vars
  assumed : ∀ e ∈ E, e.vars ⊆ vs → e ∈ A

namespace Scope

variable {store : Store} {vs : List TypeVar} {E E' A : Assumptions} {s s' : FreshSupply}

theorem store_above (h : Scope store vs E A s) : s.Above store.vars := by
  intro v hv
  exact h.above v (h.store hv)

theorem goal (h : Scope store vs E A s) {c : Constraint} (hc : c.vars ⊆ vs) :
    Scope store (store.vars ++ c.vars) E (c :: A) s where
  store := List.subset_append_left _ _
  above := h.store_above.append fun v hv => h.above v (hc hv)
  before := h.before
  assumed e he hvs := by
    have hsub : e.vars ⊆ vs := fun v hv => (List.mem_append.mp (hvs hv)).elim (h.store ·) (hc ·)
    exact List.mem_cons_of_mem c (h.assumed e he hsub)

theorem later (h : Scope store vs E A s) (hl : Later s E s' E') : Scope store vs E' A s' where
  store := h.store
  above := h.above.of_le hl.le
  before := hl.after
  assumed e he hvs := by
    have hold := (hl.agree e fun v hv => h.above v (hvs hv)).mpr he
    exact h.assumed e hold hvs

theorem drawn (h : Scope store vs E A s) {us ws : List TypeVar} (hd : Drawn s us ws s') :
    Scope store (us ++ ws ++ vs) (equalities us ws ++ E) (equalities us ws ++ A) s' where
  store := List.subset_append_of_subset_right _ h.store
  above := hd.above_append h.above
  before := (hd.later h.before).after
  assumed e he hvs := by
    rcases List.mem_append.mp he with he | he
    · exact List.mem_append_left _ he
    · have hsub : e.vars ⊆ vs := by
        intro v hv
        rcases List.mem_append.mp (hvs hv) with hnew | hold
        · exact absurd (h.before e he v hv) (Nat.not_lt.mpr (hd.new v hnew))
        · exact hold
      exact List.mem_append_right _ (h.assumed e he hsub)

theorem not_mem_later (h : Scope store vs E A s) {c : Constraint} (hc : c.vars ⊆ vs) (hA : c ∉ A)
    (hl : Later s E s' E') : c ∉ E' := by
  intro hE
  have hold := (hl.agree c fun v hv => h.above v (hc hv)).mpr hE
  exact hA (h.assumed c hold hc)

theorem shown_fresh_iff (h : Scope store vs E A s) {sub sup : List TypeVar}
    {body : List TypeVar → List TypeVar → Goal} (hg : (Goal.fresh sub sup body).Supported vs)
    {remember : Bool} {n : Nat}
    (hl : Later ((s.drawAll sub).2.drawAll sup).2
      (equalities (s.drawAll sub).1 ((s.drawAll sub).2.drawAll sup).1 ++ E) s' E') :
    (body (s.drawAll sub).1 ((s.drawAll sub).2.drawAll sup).1).Shown
        (Holds store remember n) s' E' ↔
      (Goal.fresh sub sup body).Shown (Holds store remember n) s' E' := by
  have hdrawn := drawn_drawAll s sub sup
  have hscope := h.drawn hdrawn
  have hfirst := (hdrawn.later h.before).trans hl
  -- both sides are settled when the variables are drawn
  rw [← hl.shown_iff hscope.store_above hscope.above (hg.fresh _ _),
    ← hfirst.shown_iff h.store_above h.above hg]
  rfl

end Scope

end Subtyping
