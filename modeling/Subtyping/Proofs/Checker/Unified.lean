import Subtyping.Proofs.Checker.Harmless
import Subtyping.Proofs.Signature.Spots

/-!
# A unified overload for the two overloads

An interface whose method has the unified overload is asked to stand for one whose method has both
overloads. The unified overload has a slot for whatever may be passed to them, so their parameters are
no obstacle by their shape. But it is asked for the union of their types where each of them has its own,
and by the rules for unions a type is used for a union only if it can be used for every member. So the
check may fail, though in certain ways alone (`isSubtype_of_unify`).
-/

namespace Subtyping

/-- A store with two interfaces of one method, which has the unified overload in the first of them and the
two overloads that it comes from in the second. -/
def Store.withUnified (store : Store) (one two method : Atom) (a b : Signature) (s : FreshSupply) :
    Store :=
  (store.register .interface { name := one, methods := [⟨method, [(a.unify b s).1]⟩] }).register
    .interface { name := two, methods := [⟨method, [a, b]⟩] }

/-- What the placeholders stand for in the table of an interface without arguments. -/
def Store.placeholders (store : Store) (name : Atom) : Substitution where
  self := some (.name name .interface [])
  inst := some (.instancesOf name [])
  singleton := store.object? name

section Tables

variable {store : Store} {name method : Atom} {m : Signature}

theorem Store.isNormal_placeholders (store : Store) (name : Atom) :
    (store.placeholders name).IsNormal where
  vars v t h := nomatch h
  placeholders p t h := by
    have hname : ∀ k, (Ty.name name k []).IsNormal := fun k => Ty.isNormal_of_ne nofun nofun nofun
    cases p with
    | self =>
        obtain rfl := Option.some.inj h
        exact hname _
    | inst =>
        obtain rfl := Option.some.inj h
        exact hname _
    | singleton =>
        have hobject : store.object? name = some t := h
        unfold Store.object? at hobject
        split at hobject
        · obtain rfl := Option.some.inj hobject
          exact hname _
        · split at hobject
          · obtain rfl := Option.some.inj hobject
            exact hname _
          · cases hobject

theorem Signature.subst_placeholders (hm : m.typeParams = []) :
    m.subst (store.placeholders name) = m.instantiate (store.placeholders name) := by
  have hself : (store.placeholders name).placeholder? .self ≠ none := nofun
  rw [subst_of_placeholder? hself, hm, Substitution.except_nil]
  rfl

theorem Store.expand_of_template {ms : List Signature} (hms : ∀ m ∈ ms, m.typeParams = [])
    (h : store.template? name .interface = some { name, methods := [⟨method, ms⟩] }) :
    store.expand name .interface [] =
      .ok ⟨[⟨method, ms.map fun m => m.instantiate (store.placeholders name)⟩]⟩ := by
  have hmap : ms.map (Signature.subst (store.placeholders name)) =
      ms.map fun m => m.instantiate (store.placeholders name) :=
    List.map_congr_left fun m hm => Signature.subst_placeholders (hms m hm)
  rw [← hmap, Store.expand, Store.template, h]
  rfl

end Tables

section Spots

theorem Constraint.harmless_of_mem {t : Ty} {ts : List Ty} (ht : t ∈ ts) (hne : ∀ us, t ≠ .union us) :
    Harmless ⟨.unionOf ts, t⟩ := by
  have hmem : t ∈ Ty.distinct (ts.flatMap Ty.alternatives) := by
    rw [Ty.mem_distinct]
    refine List.mem_flatMap.mpr ⟨t, ht, ?_⟩
    rw [Ty.assembly_union.parts_of_ne t hne]
    exact List.mem_singleton_self t
  apply Ty.collapse_cases (P := fun x => Harmless ⟨x, t⟩)
  · exact fun _ => .fromAny t
  · intro u hu
    rw [hu] at hmem
    obtain rfl := List.mem_singleton.mp hmem
    exact .same t
  · exact fun _ _ => .member hmem

theorem Constraint.harmless_of_merge {t x : Ty} {o : Option Ty} (hne : ∀ us, t ≠ .union us)
    (h : some x = Option.merge Ty.or (some t) o ∨ some x = Option.merge Ty.or o (some t)) :
    Harmless ⟨x, t⟩ := by
  cases o with
  | none =>
      obtain rfl : x = t := by simpa using h
      exact .same x
  | some u =>
      rcases h with h | h
      · obtain rfl := Option.some.inj h
        exact harmless_of_mem List.mem_cons_self hne
      · obtain rfl := Option.some.inj h
        exact harmless_of_mem (List.mem_cons_of_mem u List.mem_cons_self) hne

end Spots

section Unify

variable {a b o o' : Signature} {r r' : Substitution} {s : FreshSupply} {method : Atom} {f : Failure}

/-- How one of two overloads may refuse the unified one, seen from where they are compared with their
placeholders replaced: only the other one takes a block, their blocks are of other shapes, or its type at
a spot does not go with the union of both types there. Then the type depends on what the placeholders
stand for, or it is not all of the union, and stands for a parameter or is a union itself. -/
inductive Signature.Refuses (r r' : Substitution) (method : Atom) (u o o' : Signature) :
    Failure → Prop
  | block (ho : o.block = none) (ho' : o'.block ≠ none) :
      Refuses r r' method u o o' ⟨.blockMismatch method, []⟩
  | blockShape {x y : Block} (hx : u.block = some x) (hy : o.block = some y)
      (hfits : ¬y.params.Fits x.params) :
      Refuses r r' method u o o' ⟨.parameterMismatch method, []⟩
  | spot {spot : Spot} {t x : Ty} {f : Failure} (ht : o.at? spot = some t)
      (hx : (u.instantiate r).at? spot = some x)
      (hunion : some x = Option.merge Ty.or (some (t.subst r)) ((o'.instantiate r).at? spot) ∨
        some x = Option.merge Ty.or ((o'.instantiate r).at? spot) (some (t.subst r)))
      (hharmful : ¬(spot.constraint x (t.subst r')).Harmless)
      (hdiffers : t.subst r ≠ t.subst r' ∨
        x ≠ t.subst r' ∧ ((∃ i, spot = .parameter i) ∨ ∃ ts, t.subst r' = .union ts))
      (hf : f.path.head? = some (.types (spot.constraint x (t.subst r')))) :
      Refuses r r' method u o o' f

theorem Signature.harmless_of_spot {spot : Spot} {t x : Ty} {y : Option Ty}
    (hunion : some x = Option.merge Ty.or (some t) y ∨ some x = Option.merge Ty.or y (some t))
    (h : x = t ∨ (∀ i, spot ≠ .parameter i) ∧ ∀ ts, t ≠ .union ts) :
    (spot.constraint x t).Harmless := by
  rcases h with rfl | ⟨hresult, hone⟩
  · cases spot <;> exact .same x
  · have hharmless := Constraint.harmless_of_merge hone hunion
    cases spot with
    | parameter i => exact absurd rfl (hresult i)
    | _ => exact hharmless

theorem Store.FailsInEarnest.head_path {store : Store} {room : Nat} {c : Constraint}
    (h : store.FailsInEarnest room c f) (hdeep : f.reason ≠ .depthExceeded) :
    f.path.head? = some (.types c) := by
  rcases h.1 with ⟨_, rfl⟩ | ⟨f', _, rfl⟩
  · exact absurd rfl hdeep
  · rfl

/-- What the unified overload `u` has from one of the two, `o`, and from the other one, `o'`: slots for
the parameters of `o`, a block if either of them takes one, and the union of their types at every spot. -/
structure Signature.Unites (r : Substitution) (u o o' : Signature) : Prop where
  fits (r' : Substitution) : (u.instantiate r).params.Fits (o.instantiate r').params
  block : u.block.isSome = (o.block.isSome || o'.block.isSome)
  spots (spot : Spot) :
    let x := (o.instantiate r).at? spot
    let y := (o'.instantiate r).at? spot
    (u.instantiate r).at? spot = Option.merge Ty.or x y ∨
      (u.instantiate r).at? spot = Option.merge Ty.or y x

theorem Signature.unites_left (ha : a.typeParams = []) (hb : b.typeParams = []) (hr : r.IsNormal) :
    Unites r (a.unify b s).1 a b where
  fits _ := fits_unify.1
  block := isSome_block_unify
  spots := at?_instantiate_unify ha hb hr

theorem Signature.unites_right (ha : a.typeParams = []) (hb : b.typeParams = []) (hr : r.IsNormal) :
    Unites r (a.unify b s).1 b a where
  fits _ := fits_unify.2
  block := isSome_block_unify.trans (Bool.or_comm _ _)
  spots spot := (at?_instantiate_unify ha hb hr spot).symm

theorem Signature.Unites.refuses_of_spot {store : Store} {room : Nat} {u : Signature} {spot : Spot}
    {x y : Ty} {f' : Failure} (hu : Unites r u o o') (hx : (u.instantiate r).at? spot = some x)
    (hy : (o.instantiate r').at? spot = some y)
    (hf' : store.FailsInEarnest room (spot.constraint x y) f') (hdeep : f'.reason ≠ .depthExceeded)
    (hpath : f.path = f'.path) : Refuses r r' method u o o' f := by
  rw [at?_instantiate] at hy
  obtain ⟨t, ht, rfl⟩ := Option.map_eq_some_iff.mp hy
  have hunion := hu.spots spot
  rw [hx, at?_instantiate o, ht, Option.map_some] at hunion
  have hharmful := hf'.2 hdeep
  refine .spot ht hx hunion hharmful ?_ (by rw [hpath, hf'.head_path hdeep])
  -- in every other case the comparison is a harmless one
  by_contra hsame
  simp only [not_or, not_not, not_and_or, not_exists] at hsame
  obtain ⟨hplain, hsuits⟩ := hsame
  rw [hplain] at hunion
  exact hharmful (harmless_of_spot hunion hsuits)

/-- The comparison of the unified overload with one of the two fails in no other ways. -/
theorem Signature.Unites.refuses_of_fails {store : Store} {room : Nat} {u : Signature}
    (hu : Unites r u o o') (hsu : u.IsSorted) (hso : o.IsSorted)
    (h : (Goal.signature method (u.instantiate r) (o.instantiate r')).Fails
      (store.FailsInEarnest room) f) (hdeep : f.reason ≠ .depthExceeded) :
    Refuses r r' method u o o' f := by
  rcases Goal.fails_signature (hsu.instantiate r) (hso.instantiate r') h with
    ⟨hno, _⟩ | ⟨hblock, rfl⟩ | ⟨x, y, hx, hy, hno, rfl⟩ | ⟨spot, x, y, f', hx, hy, hf', rfl | rfl⟩
  · -- the unified overload has a slot for whatever the other one takes
    exact absurd (hu.fits r') hno
  · rw [instantiate, instantiate, mapTypes, mapTypes, Option.isSome_map, Option.isSome_map,
      hu.block] at hblock
    cases hob : o.block with
    | some x => simp [hob] at hblock
    | none => exact .block hob (by simpa [hob] using hblock)
  · obtain ⟨x', hx', rfl⟩ := Option.map_eq_some_iff.mp hx
    obtain ⟨y', hy', rfl⟩ := Option.map_eq_some_iff.mp hy
    exact .blockShape hx' hy' (mt (Params.fits_map _ _ _ _).mpr hno)
  · exact hu.refuses_of_spot hx hy hf' hdeep rfl
  · refine hu.refuses_of_spot hx hy hf' (fun hreason => hdeep ?_) (f'.asParameter_path method)
    rw [Failure.asParameter, hreason]
    exact hreason

end Unify

section Checker

variable {store : Store} {a b : Signature} {one two method : Atom} {s supply : FreshSupply}
  {maxDepth : Nat} {f : Failure}

theorem Store.goal_withUnified (store : Store) (ha : a.typeParams = []) (hb : b.typeParams = [])
    (hne : one ≠ two) :
    (store.withUnified one two method a b s).goal
        ⟨.name one .interface [], .name two .interface []⟩ =
      .all [.within (.method method)
        (.method method [(a.unify b s).1.instantiate (store.placeholders one)]
          [a.instantiate (store.placeholders two), b.instantiate (store.placeholders two)])] := by
  have hone : (store.withUnified one two method a b s).template? one .interface =
      some { name := one, methods := [⟨method, [(a.unify b s).1]⟩] } := by
    rw [withUnified, template?_register, if_neg fun h => hne h.2, template?_register,
      if_pos ⟨rfl, rfl⟩]
  have htwo : (store.withUnified one two method a b s).template? two .interface =
      some { name := two, methods := [⟨method, [a, b]⟩] } := by
    rw [withUnified, template?_register, if_pos ⟨rfl, rfl⟩]
  have hsub := expand_of_template (by simpa using Signature.typeParams_unify ha hb) hone
  have hsup := expand_of_template (by simp [ha, hb]) htwo
  have hopen : ¬((Ty.name one .interface []) = .name two .interface [] ∨
      Ty.name one .interface [] = .any ∨ Ty.name two .interface [] = .any) := by
    simp [hne]
  rw [goal, if_neg hopen]
  simp only [hsub, hsup, Goal.interface, Interface.method?, List.map_cons, List.map_nil,
    List.find?_cons, beq_self_eq_true]
  rfl

theorem exists_solve_of_isSubtype {store : Store} {c : Constraint}
    (h : (({ maxDepth } : Checker).isSubtype store supply c.sub c.sup).1 = .failure f)
    (hdeep : f.reason ≠ .depthExceeded) :
    ∃ room, ((store.goal c).solve (check store room) [c] [.types c] ⟨supply, {}⟩).1 =
      .failure f := by
  have hcheck : (check store maxDepth [] [] c ⟨supply, {}⟩).1 = .failure f := h
  cases maxDepth with
  | zero =>
      rw [check_zero rfl List.not_mem_nil] at hcheck
      obtain rfl := Outcome.failure.inj hcheck
      exact absurd rfl hdeep
  | succ room =>
      refine ⟨room, ?_⟩
      rw [check_succ rfl List.not_mem_nil] at hcheck
      dsimp only at hcheck
      split at hcheck <;> exact hcheck

/-- If a new checker does not let the interface with the unified overload stand for the one with the two
overloads, and not for want of room, it is because one of these refuses the unified one: the failure
comes from their comparison, and goes on from there to what they differ in. -/
theorem isSubtype_of_unify (ha : a.typeParams = []) (hb : b.typeParams = []) (hsa : a.IsSorted)
    (hsb : b.IsSorted) (hne : one ≠ two)
    (h : (({ maxDepth } : Checker).isSubtype (store.withUnified one two method a b s) supply
      (.name one .interface []) (.name two .interface [])).1 = .failure f)
    (hdeep : f.reason ≠ .depthExceeded) :
    let r := store.placeholders one
    let r' := store.placeholders two
    let u := (a.unify b s).1
    ∃ o o' f', (o = a ∧ o' = b ∨ o = b ∧ o' = a) ∧
      f = f'.after [.types ⟨.name one .interface [], .name two .interface []⟩, .method method,
        .overloads method (u.instantiate r) (o.instantiate r')] ∧
      Signature.Refuses r r' method u o o' f' := by
  intro r r' u
  obtain ⟨room, hsolve⟩ := exists_solve_of_isSubtype
    (c := ⟨.name one .interface [], .name two .interface []⟩) h hdeep
  rw [store.goal_withUnified ha hb hne] at hsolve
  have hconjunctive : (Goal.all [.within (.method method) (.method method [u.instantiate r]
      [a.instantiate r', b.instantiate r'])]).Conjunctive :=
    ⟨Goal.conjunctive_method method _ _, True.intro⟩
  obtain ⟨f₁, hf₁, rfl⟩ := (hconjunctive.solve_fails check_failsInEarnest _ _ _
    (Kept.untroubled_new _ room)).failure f hsolve
  rcases hf₁ with ⟨f₂, hf₂, rfl⟩ | hno
  · rcases Goal.fails_method hf₂ with ⟨hno, _⟩ | ⟨u', hu', o', ho', hf₂⟩
    · cases hno
    · obtain rfl := List.mem_singleton.mp hu'
      obtain ⟨_, f₃, hf₃, rfl⟩ := Goal.fails_overload hf₂
      have hr := store.isNormal_placeholders one
      have hsu := Signature.isSorted_unify (s := s) hsa hsb
      rcases List.mem_pair.mp ho' with rfl | rfl
      · exact ⟨a, b, f₃, .inl ⟨rfl, rfl⟩, rfl,
          (Signature.unites_left ha hb hr).refuses_of_fails hsu hsa hf₃ hdeep⟩
      · exact ⟨b, a, f₃, .inr ⟨rfl, rfl⟩, rfl,
          (Signature.unites_right ha hb hr).refuses_of_fails hsu hsb hf₃ hdeep⟩
  · exact hno.elim

/-- The result of one overload is a union itself, and the one of the other is not a member of it. -/
theorem isSubtype_of_unify_results :
    let a : Signature := { result := .union [.nil, .bool] }
    let b : Signature := { result := .void }
    let store := Store.withUnified {} ⟨1⟩ ⟨2⟩ ⟨3⟩ a b {}
    let r := Store.placeholders {} ⟨1⟩
    let r' := Store.placeholders {} ⟨2⟩
    let u := (a.unify b {}).1
    ∃ f, (({} : Checker).isSubtype store {} (.name ⟨1⟩ .interface []) (.name ⟨2⟩ .interface [])).1 =
        .failure f ∧ f.reason = .unknownPair ⟨.nil, .bool⟩ ∧
      ∃ o o' f', (o = a ∧ o' = b ∨ o = b ∧ o' = a) ∧
        f = f'.after [.types ⟨.name ⟨1⟩ .interface [], .name ⟨2⟩ .interface []⟩, .method ⟨3⟩,
          .overloads ⟨3⟩ (u.instantiate r) (o.instantiate r')] ∧
        Signature.Refuses r r' ⟨3⟩ u o o' f' := by
  intro a b store r r' u
  have hempty : (Params.IsSorted (α := Ty) {}) := ⟨.nil, .nil⟩
  have hfails : (({} : Checker).isSubtype store {} (.name ⟨1⟩ .interface [])
      (.name ⟨2⟩ .interface [])).1 = .failure ⟨.unknownPair ⟨.nil, .bool⟩,
        [.types ⟨.name ⟨1⟩ .interface [], .name ⟨2⟩ .interface []⟩, .method ⟨3⟩,
          .overloads ⟨3⟩ { result := .union [.nil, .bool, .void] } a,
          .types ⟨.union [.nil, .bool, .void], .union [.nil, .bool]⟩,
          .types ⟨.nil, .union [.nil, .bool]⟩, .types ⟨.nil, .bool⟩]⟩ := by
    decide +kernel
  exact ⟨_, hfails, rfl, isSubtype_of_unify rfl rfl ⟨hempty, nofun⟩ ⟨hempty, nofun⟩ (by decide) hfails
    nofun⟩

/-- Two overloads for an argument of two kinds. The unified one takes either, and by the rules for unions
that is too much for both. -/
theorem not_isSubtype_of_unify :
    let a : Signature := { params := { required := [.nil] }, result := .nil }
    let b : Signature := { params := { required := [.bool] }, result := .nil }
    let u : Signature := { params := { required := [.union [.nil, .bool]] }, result := .nil }
    let store := Store.withUnified {} ⟨1⟩ ⟨2⟩ ⟨3⟩ a b {}
    (a.unify b {}).1 = u ∧ a.typeParams = [] ∧ b.typeParams = [] ∧
      (({} : Checker).isSubtype store {} (.name ⟨1⟩ .interface []) (.name ⟨2⟩ .interface [])).1 =
        .failure ⟨.parameterMismatch ⟨3⟩,
          [.types ⟨.name ⟨1⟩ .interface [], .name ⟨2⟩ .interface []⟩, .method ⟨3⟩,
            .overloads ⟨3⟩ u a, .types ⟨.nil, .union [.nil, .bool]⟩, .types ⟨.nil, .bool⟩]⟩ := by
  decide +kernel

end Checker

end Subtyping
