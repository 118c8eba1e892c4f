import Subtyping.Proofs.Checker.Replay
import Subtyping.Proofs.Checker.Session
import Subtyping.Proofs.Checker.TooDeep
import Subtyping.Proofs.Goal.Fails

/-!
# The path of a failure

The path of a failure leads from the question that was asked to what decided it: each place on it is a
premise of the one before (`Store.Premise`), and at the last one a rule stops (`Store.Stops`) or the
depth limit was met. The reason is what is wrong there, unless the path goes through a parameter of a
method, which is what is named then (`Store.Blames`). A path may be put together from pieces that
earlier questions left in memory.
-/

namespace Subtyping

/-- A place on the path of a check, with the methods that are compared there. -/
inductive Place
  | types (c : Constraint)
  | method (sub sup : Method)
  | overloads (name : Atom) (sub sup : Signature)

namespace Place

/-- What shows of a place on a path. -/
def step : Place → Step
  | types c => .types c
  | method _ sup => .method sup.name
  | overloads name sub sup => .overloads name sub sup

def isTypes : Place → Bool
  | types _ => true
  | _ => false

end Place

/-- What may be passed to a signature, or by it to its block, has to be taken by the counterpart. -/
inductive Signature.Passes (s t : Signature) : Constraint → Prop
  | argument {pairs : List (Ty × Ty)} {e : Ty × Ty} (hpairs : s.params.pairs? t.params = some pairs)
      (he : e ∈ pairs) : Passes s t ⟨e.2, e.1⟩
  | blockArgument {b c : Block} {pairs : List (Ty × Ty)} {e : Ty × Ty} (hs : s.block = some b)
      (ht : t.block = some c) (hpairs : c.params.pairs? b.params = some pairs) (he : e ∈ pairs) :
      Passes s t ⟨e.2, e.1⟩

/-- What a signature, or its block, gives back has to be of use for the counterpart. -/
inductive Signature.GivesBack (s t : Signature) : Constraint → Prop
  | result : GivesBack s t ⟨s.result, t.result⟩
  | blockResult {b c : Block} (hs : s.block = some b) (ht : t.block = some c) :
      GivesBack s t ⟨b.result, c.result⟩

/-- The parameters of two signatures, or of their blocks, cannot be lined up. -/
inductive Signature.Misfits (s t : Signature) : Prop
  | arguments (h : s.params.pairs? t.params = none)
  | blockArguments {b c : Block} (hs : s.block = some b) (ht : t.block = some c)
      (h : c.params.pairs? b.params = none)

namespace Store

/-- Two distinct names have these interfaces. -/
inductive Faces (store : Store) : Constraint → Interface → Interface → Prop
  | names {h h' : Atom} {k k' : NameKind} {ts us : List Ty} {sub sup : Interface}
      (hne : Ty.name h k ts ≠ .name h' k' us) (hsub : store.expand h k ts = .ok sub)
      (hsup : store.expand h' k' us = .ok sup) :
      store.Faces ⟨.name h k ts, .name h' k' us⟩ sub sup

/-- One place leads to another one that has to be shown for it. -/
inductive Leads (store : Store) : Place → Place → Prop
  | subMember {t u : Ty} {ts : List Ty} (ht : t ∈ ts) :
      store.Leads (.types ⟨.union ts, u⟩) (.types ⟨t, u⟩)
  | supMember {t u : Ty} {us : List Ty} (ht : ∀ ts, t ≠ .union ts) (hu : u ∈ us) :
      store.Leads (.types ⟨t, .union us⟩) (.types ⟨t, u⟩)
  | method {c : Constraint} {sub sup : Interface} {p q : Method} (hc : store.Faces c sub sup)
      (hq : q ∈ sup.methods) (hp : sub.method? q.name = some p) :
      store.Leads (.types c) (.method p q)
  | overloads {p q : Method} {a b : Signature} (s : FreshSupply) (ha : a ∈ p.overloads)
      (hb : b ∈ q.overloads) :
      store.Leads (.method p q) (.overloads q.name (a.withVars (s.drawAll a.typeParams).1)
        (b.withVars ((s.drawAll a.typeParams).2.drawAll b.typeParams).1))
  | givenBack {name : Atom} {a b : Signature} {d : Constraint} (hd : a.GivesBack b d) :
      store.Leads (.overloads name a b) (.types d)

/-- Whether one place is a premise of another one, through a parameter or otherwise. -/
inductive Premise (store : Store) : Place → Place → Prop
  | leads {p q : Place} (h : store.Leads p q) : store.Premise p q
  | passed {name : Atom} {a b : Signature} {d : Constraint} (hd : a.Passes b d) :
      store.Premise (.overloads name a b) (.types d)

/-- Whether something is wrong at a place itself. -/
inductive Stops (store : Store) : Place → Reason → Prop
  | unknownPair {c : Constraint} (hc : store.goal c = .impossible (.unknownPair c)) :
      store.Stops (.types c) (.unknownPair c)
  | methodMissing {c : Constraint} {sub sup : Interface} {q : Method} (hc : store.Faces c sub sup)
      (hq : q ∈ sup.methods) (hsub : sub.method? q.name = none) :
      store.Stops (.types c) (.methodMissing q.name)
  | noOverload {p q : Method} (hp : p.overloads = []) (hq : q.overloads ≠ []) :
      store.Stops (.method p q) (.methodMissing q.name)
  | parameterMismatch {name : Atom} {a b : Signature} (h : a.Misfits b) :
      store.Stops (.overloads name a b) (.parameterMismatch name)
  | blockMismatch {name : Atom} {a b : Signature} (h : a.block.isSome ≠ b.block.isSome) :
      store.Stops (.overloads name a b) (.blockMismatch name)

/-- What a failure is blamed on whose path goes through these places: what is wrong at the last one, or
that there is no room for a premise of it. On the way through a parameter it becomes that the parameters
of the method do not fit, unless the check just went too deep. -/
inductive Blames (store : Store) : List Place → Reason → Prop
  | stops {p : Place} {reason : Reason} (h : store.Stops p reason) : store.Blames [p] reason
  | refused {p : Place} {d : Constraint} (h : store.Premise p (.types d)) :
      store.Blames [p] .depthExceeded
  | leads {p q : Place} {places : List Place} {reason : Reason} (hpq : store.Leads p q)
      (h : store.Blames (q :: places) reason) : store.Blames (p :: q :: places) reason
  | passed {name : Atom} {a b : Signature} {d : Constraint} {places : List Place} {reason : Reason}
      (hd : a.Passes b d) (h : store.Blames (.types d :: places) reason)
      (hne : reason ≠ .depthExceeded) :
      store.Blames (.overloads name a b :: .types d :: places) (.parameterMismatch name)
  | passedTooDeep {name : Atom} {a b : Signature} {d : Constraint} {places : List Place}
      (hd : a.Passes b d) (h : store.Blames (.types d :: places) .depthExceeded) :
      store.Blames (.overloads name a b :: .types d :: places) .depthExceeded

/-- The places of the path of a failure for a reason: it is what they are blamed on, and if it is the
depth, as many constraints are open as there was room for. -/
structure Explains (store : Store) (room : Nat) (places : List Place) (reason : Reason) : Prop where
  blames : store.Blames places reason
  countP : reason = .depthExceeded → places.countP Place.isTypes = room

end Store

variable {store : Store} {room : Nat} {p q : Place} {places : List Place} {reason : Reason}

theorem Store.Stops.ne_depthExceeded (h : store.Stops p reason) : reason ≠ .depthExceeded := by
  cases h <;> exact nofun

namespace Store.Blames

variable {c : Constraint} {name : Atom}

theorem isChain (h : store.Blames places reason) : places.IsChain store.Premise := by
  induction h with
  | stops h => exact .singleton _
  | refused h => exact .singleton _
  | leads hpq h ih => exact .cons_cons (.leads hpq) ih
  | passed hd h hne ih => exact .cons_cons (.passed hd) ih
  | passedTooDeep hd h ih => exact .cons_cons (.passed hd) ih

theorem stops_of_ne (h : store.Blames places reason) (hdeep : reason ≠ .depthExceeded)
    (hparameter : ∀ name, reason ≠ .parameterMismatch name) :
    ∃ last, places.getLast? = some last ∧ store.Stops last reason := by
  induction h with
  | stops h => exact ⟨_, rfl, h⟩
  | refused h => exact absurd rfl hdeep
  | leads hpq h ih =>
      rw [List.getLast?_cons_cons]
      exact ih hdeep hparameter
  | passed hd h hne ih => exact absurd rfl (hparameter _)
  | passedTooDeep hd h ih => exact absurd rfl hdeep

theorem last_of_unknownPair (h : store.Blames places reason)
    (hreason : reason = .unknownPair c) : places.getLast? = some (.types c) := by
  subst hreason
  obtain ⟨last, hlast, hstops⟩ := h.stops_of_ne nofun nofun
  cases hstops
  exact hlast

theorem last_of_blockMismatch (h : store.Blames places reason)
    (hreason : reason = .blockMismatch name) :
    ∃ a b, places.getLast? = some (.overloads name a b) ∧ a.block.isSome ≠ b.block.isSome := by
  subst hreason
  obtain ⟨last, hlast, hstops⟩ := h.stops_of_ne nofun nofun
  cases hstops with
  | blockMismatch hne => exact ⟨_, _, hlast, hne⟩

theorem last_of_methodMissing (h : store.Blames places reason)
    (hreason : reason = .methodMissing name) :
    (∃ p q, places.getLast? = some (.method p q) ∧ q.name = name ∧ p.overloads = [] ∧
      q.overloads ≠ []) ∨
    ∃ d sub sup, places.getLast? = some (.types d) ∧ store.Faces d sub sup ∧
      (∃ q ∈ sup.methods, q.name = name) ∧ sub.method? name = none := by
  subst hreason
  obtain ⟨last, hlast, hstops⟩ := h.stops_of_ne nofun nofun
  cases hstops with
  | methodMissing hd hq hsub => exact .inr ⟨_, _, _, hlast, hd, ⟨_, hq, rfl⟩, hsub⟩
  | noOverload hp hq => exact .inl ⟨_, _, hlast, rfl, hp, hq⟩

theorem misfits_or_passes (h : store.Blames places reason)
    (hreason : reason = .parameterMismatch name) :
    (∃ a b, places.getLast? = some (.overloads name a b) ∧ a.Misfits b) ∨
      ∃ a b d, a.Passes b d ∧ [.overloads name a b, .types d] <:+: places := by
  induction h with
  | stops h =>
      subst hreason
      cases h with
      | parameterMismatch hfit => exact .inl ⟨_, _, rfl, hfit⟩
  | refused h => exact nomatch hreason
  | leads hpq h ih =>
      rw [List.getLast?_cons_cons]
      refine (ih hreason).imp_right ?_
      rintro ⟨a, b, d, hd, hinfix⟩
      exact ⟨a, b, d, hd, List.infix_cons hinfix⟩
  | @passed _ a b d places _ hd h hne ih =>
      obtain rfl := Reason.parameterMismatch.inj hreason
      exact .inr ⟨a, b, d, hd, ⟨[], places, rfl⟩⟩
  | passedTooDeep hd h ih => exact nomatch hreason

end Store.Blames

namespace Store.Explains

theorem of_stops (h : store.Stops p reason) : store.Explains room [p] reason := by
  refine ⟨.stops h, fun hdeep => ?_⟩
  exact absurd hdeep h.ne_depthExceeded

theorem of_refused {d : Constraint} (h : store.Premise p (.types d)) :
    store.Explains ([p].countP Place.isTypes) [p] .depthExceeded :=
  ⟨.refused h, fun _ => rfl⟩

theorem cons (h : store.Explains room (q :: places) reason) (hpq : store.Leads p q) :
    store.Explains (room + [p].countP Place.isTypes) (p :: q :: places) reason := by
  refine ⟨.leads hpq h.blames, fun hdeep => ?_⟩
  rw [← h.countP hdeep, ← List.singleton_append, List.countP_append, Nat.add_comm]

theorem parameter {name : Atom} {a b : Signature} {d : Constraint} (hd : a.Passes b d)
    (h : store.Explains room (.types d :: places) reason) (path : Path) :
    store.Explains room (.overloads name a b :: .types d :: places)
      (Failure.asParameter name ⟨reason, path⟩).reason := by
  cases reason with
  | depthExceeded => exact ⟨.passedTooDeep hd h.blames, h.countP⟩
  | _ => exact ⟨.passed hd h.blames nofun, nofun⟩

theorem of_ne {room' : Nat} (h : store.Explains room places reason) (hne : reason ≠ .depthExceeded) :
    store.Explains room' places reason := by
  -- the room counts for a path that ended for want of it, and for no other
  refine ⟨h.blames, fun hdeep => ?_⟩
  exact absurd hdeep hne

end Store.Explains

/-- A failure below a place is explained by the places that follow. -/
def Store.FailsAt (store : Store) (room : Nat) (p : Place) (f : Failure) : Prop :=
  ∃ places, f.path = places.map Place.step ∧ store.Explains room (p :: places) f.reason

/-- How a constraint can fail with room for so many nested constraints. -/
def Store.FailsAs (store : Store) (room : Nat) (c : Constraint) (f : Failure) : Prop :=
  room = 0 ∧ f = ⟨.depthExceeded, []⟩ ∨
    ∃ f', store.FailsAt room (.types c) f' ∧ f = f'.after [.types c]

section Rules

variable {f : Failure} {d : Constraint}

theorem Store.Stops.failsAt (h : store.Stops p reason) : store.FailsAt room p ⟨reason, []⟩ :=
  ⟨[], rfl, .of_stops h⟩

theorem Store.FailsAt.after (h : store.FailsAt room q f) (hpq : store.Leads p q) :
    store.FailsAt (room + [p].countP Place.isTypes) p (f.after [q.step]) := by
  obtain ⟨places, hpath, hexplains⟩ := h
  refine ⟨q :: places, ?_, hexplains.cons hpq⟩
  rw [Failure.after, hpath]
  rfl

theorem Store.FailsAs.failsAt (h : store.FailsAs room d f) (hp : store.Leads p (.types d)) :
    store.FailsAt (room + [p].countP Place.isTypes) p f := by
  rcases h with ⟨rfl, rfl⟩ | ⟨f', hf', rfl⟩
  · refine ⟨[], rfl, ?_⟩
    rw [Nat.zero_add]
    exact .of_refused (.leads hp)
  · exact hf'.after hp

theorem Store.FailsAs.failsAt_parameter {name : Atom} {a b : Signature} (h : store.FailsAs room d f)
    (hd : a.Passes b d) : store.FailsAt room (.overloads name a b) (f.asParameter name) := by
  rcases h with ⟨rfl, rfl⟩ | ⟨f', ⟨places, hpath, hexplains⟩, rfl⟩
  · exact ⟨[], rfl, .of_refused (.passed hd)⟩
  · refine ⟨.types d :: places, ?_, hexplains.parameter hd _⟩
    rw [Failure.asParameter_after, Failure.after, Failure.asParameter_path, hpath]
    rfl

namespace Goal

theorem failsAt_of_params {name : Atom} {a b : Signature} {x y : Params Ty}
    (hnone : x.pairs? y = none → a.Misfits b)
    (hsome : ∀ pairs e, x.pairs? y = some pairs → e ∈ pairs → a.Passes b ⟨e.2, e.1⟩)
    (h : (params name x y).Fails (store.FailsAs room) f) :
    store.FailsAt room (.overloads name a b) f := by
  rcases fails_params h with ⟨hpairs, rfl⟩ | ⟨pairs, e, f', hpairs, he, hf', rfl⟩
  · exact (Store.Stops.parameterMismatch (hnone hpairs)).failsAt
  · exact hf'.failsAt_parameter (hsome pairs e hpairs he)

theorem failsAt_of_signature {name : Atom} {a b : Signature}
    (h : (signature name a b).Fails (store.FailsAs room) f) :
    store.FailsAt room (.overloads name a b) f := by
  rcases h with h | h | h | h | h
  · exact failsAt_of_params .arguments (fun pairs e => .argument) h
  · obtain ⟨hne, rfl⟩ := fails_blockGiven h
    exact (Store.Stops.blockMismatch hne).failsAt
  · obtain ⟨c, c', hc, hc', h | h⟩ := fails_block h
    · exact failsAt_of_params (.blockArguments hc hc') (fun pairs e => .blockArgument hc hc') h
    · exact h.failsAt (.givenBack (.blockResult hc hc'))
  · exact h.failsAt (.givenBack .result)
  · exact h.elim

theorem failsAt_of_method {p q : Method}
    (h : (method q.name p.overloads q.overloads).Fails (store.FailsAs room) f) :
    store.FailsAt room (.method p q) f := by
  rcases fails_method h with ⟨hp, hq, rfl⟩ | ⟨a, ha, b, hb, h⟩
  · exact (Store.Stops.noOverload hp hq).failsAt
  · obtain ⟨s, f', hf', rfl⟩ := fails_overload h
    exact (failsAt_of_signature hf').after (.overloads s ha hb)

theorem failsAt_of_interface {c : Constraint} {sub sup : Interface} (hc : store.Faces c sub sup)
    (h : (interface sub sup).Fails (store.FailsAs room) f) :
    store.FailsAt (room + 1) (.types c) f := by
  obtain ⟨q, hq, ⟨hp, rfl⟩ | ⟨p, f', hp, hf', rfl⟩⟩ := fails_interface h
  · exact (Store.Stops.methodMissing hc hq hp).failsAt
  · exact (failsAt_of_method hf').after (.method hc hq hp)

end Goal

theorem Store.failsAt_of_impossible {c : Constraint}
    (hc : store.goal c = .impossible (.unknownPair c))
    (h : (Goal.impossible (.unknownPair c)).Fails (store.FailsAs room) f) :
    store.FailsAt (room + 1) (.types c) f := by
  obtain rfl := h
  exact (Store.Stops.unknownPair hc).failsAt

/-- What the rules say of a constraint explains every failure of its goal. -/
theorem Store.failsAt_of_goal {c : Constraint} (h : (store.goal c).Fails (store.FailsAs room) f) :
    store.FailsAt (room + 1) (.types c) f := by
  obtain ⟨g, hg⟩ : ∃ g, store.goal c = g := ⟨_, rfl⟩
  rw [hg] at h
  have hrule := hg
  rcases c with ⟨sub, sup⟩
  unfold Store.goal at hrule
  split at hrule
  · subst hrule
    exact h.elim
  next hopen =>
    dsimp only at hrule hopen
    -- the cases are the lines of the table of rules
    split at hrule
    · split at hrule
      next hsub hsup =>
        subst hrule
        exact Goal.failsAt_of_interface (.names (fun he => hopen (.inl he)) hsub hsup) h
      next =>
        subst hrule
        exact failsAt_of_impossible hg h
    next v us =>
      subst hrule
      obtain ⟨u, hu, hf⟩ := Goal.fails_all_map h
      exact FailsAs.failsAt hf (.supMember (fun _ => nofun) hu)
    next =>
      subst hrule
      exact failsAt_of_impossible hg h
    next =>
      subst hrule
      exact h.elim
    next ts _ =>
      subst hrule
      rcases Goal.fails_any_map h with ⟨rfl, hf⟩ | ⟨t, ht, hf⟩
      · exact failsAt_of_impossible hg hf
      · exact FailsAs.failsAt hf (.subMember ht)
    next us _ hsub =>
      subst hrule
      obtain ⟨u, hu, hf⟩ := Goal.fails_all_map h
      exact FailsAs.failsAt hf (.supMember hsub hu)
    next =>
      subst hrule
      exact failsAt_of_impossible hg h

end Rules

/-- How the failure of a constraint may be kept: it starts there, is explained from there on, and did
not go too deep. -/
def Store.Remembers (store : Store) (c : Constraint) (f : Failure) : Prop :=
  f.reason ≠ .depthExceeded ∧ ∃ f', store.FailsAt 0 (.types c) f' ∧ f = f'.after [.types c]

/-- Every failure in memory is explained. -/
def Kept.Explained (store : Store) (kept : Kept) : Prop :=
  ∀ c f, kept.memo.get? c = some (.failure f) → store.Remembers c f

theorem Kept.Explained.definite {kept : Kept} (h : kept.Explained store) : kept.memo.Definite := by
  intro c o hc hdeep
  cases o with
  | success => exact hdeep
  | failure f => exact (h c f hc).1 hdeep

section Run

theorem EndsIn.opened {keeps : Kept → Prop} {c : Constraint} {path : Path}
    {r : Outcome × Progress Kept}
    (h : EndsIn keeps ((store.goal c).Fails (store.FailsAs room)) (path ++ [.types c]) r) :
    EndsIn keeps (store.FailsAs (room + 1) c) path r := by
  refine ⟨h.kept, fun f hf => ?_⟩
  obtain ⟨f', hf', rfl⟩ := h.failure f hf
  exact ⟨f'.after [.types c], .inr ⟨f', store.failsAt_of_goal hf', rfl⟩, f'.after_append path _⟩

theorem EndsIn.remembers {keeps : Kept → Prop} {c : Constraint} {path : Path}
    {r : Outcome × Progress Kept} {f : Failure}
    (h : EndsIn keeps (store.FailsAs (room + 1) c) path r) (hdeep : ¬r.1.TooDeep)
    (hf : r.1.mapFailure (Failure.dropPath path.length) = .failure f) : store.Remembers c f := by
  cases hr : r.1 with
  | success =>
      rw [hr] at hf
      exact nomatch hf
  | failure g =>
      rw [hr] at hf hdeep
      obtain ⟨g, hg, rfl⟩ := h.failure g hr
      rw [Outcome.mapFailure, Failure.dropPath_after] at hf
      obtain rfl := Outcome.failure.inj hf
      rcases hg with ⟨hroom, _⟩ | ⟨f', ⟨places, hpath, hexplains⟩, rfl⟩
      · exact absurd hroom (Nat.succ_ne_zero room)
      · exact ⟨hdeep, f', ⟨places, hpath, hexplains.of_ne hdeep⟩, rfl⟩

theorem check_explained (A : Assumptions) (path : Path) (c : Constraint) (σ : Progress Kept)
    (h : σ.kept.Explained store) :
    EndsIn (Kept.Explained store) (store.FailsAs room c) path (check store room A path c σ) := by
  induction room, A, path, c, σ using check_induct store with
  | memo room A path c σ o hc =>
      refine ⟨h, fun f hf => ?_⟩
      cases o with
      | success => exact nomatch hf
      | failure f =>
          obtain rfl := Outcome.failure.inj hf
          obtain ⟨hne, f', ⟨places, hpath, hexplains⟩, rfl⟩ := h c f hc
          exact ⟨f'.after [.types c], .inr ⟨f', ⟨places, hpath, hexplains.of_ne hne⟩, rfl⟩, rfl⟩
  | assumed room A path c σ hc hA => exact .of_success rfl h
  | ceiling A path c σ hc hA =>
      refine ⟨h, fun f hf => ⟨⟨.depthExceeded, []⟩, .inl ⟨rfl, rfl⟩, ?_⟩⟩
      obtain rfl := Outcome.failure.inj hf
      exact (Failure.after_mk_nil path .depthExceeded).symm
  | settled room A path c σ hc hA ih r hhits =>
      have hgoal : EndsIn (Kept.Explained store) (store.FailsAs (room + 1) c) path r :=
        (Goal.solve_fails ih (store.goal c) (c :: A) (path ++ [.types c]) σ h).opened
      have hcounts : CountsDepth σ r :=
        solve_countsDepth check_countsDepth (store.goal_givesReason c) _ _ σ h.definite
      refine ⟨fun d f hd => ?_, hgoal.failure⟩
      rcases Memo.eq_or_get?_of_get?_insert hd with ⟨rfl, hf⟩ | hd
      · exact hgoal.remembers (fun hdeep => Nat.ne_of_gt (hcounts.counted hdeep) hhits) hf
      · exact hgoal.kept d f hd
  | tainted room A path c σ hc hA ih r hhits =>
      exact (Goal.solve_fails ih (store.goal c) (c :: A) (path ++ [.types c]) σ h).opened

end Run

namespace Checker

theorem askAll_room (k : Checker) (store : Store) (supply : FreshSupply) (cs : List Constraint) :
    (k.askAll store supply cs).1.maxDepth - (k.askAll store supply cs).1.depth =
      k.maxDepth - k.depth := by
  induction cs generalizing k supply with
  | nil => rfl
  | cons c cs ih => exact ih _ _

theorem askAll_explained {k : Checker} (h : k.kept.Explained store) (supply : FreshSupply)
    (cs : List Constraint) : (k.askAll store supply cs).1.kept.Explained store := by
  induction cs generalizing k supply with
  | nil => exact h
  | cons c cs ih => exact ih (check_explained [] [] c ⟨supply, k.kept⟩ h).kept _

/-- Whatever a checker was asked before, when it fails at a question then either there is no room at all,
or the path of the failure leads from the question to its reason, from each place to a premise of it.
If no rule relates two types, these are at its end; if just one side takes a block, the two overloads are;
if a method is missing, then the method without overloads is or two names of whose interfaces just one
has the method; and if parameters do not fit, then those of the overloads at its end cannot be lined up,
or it goes through one of them. -/
theorem isSubtype_explained {maxDepth : Nat} {supply : FreshSupply} {asked : List Constraint}
    {c : Constraint} {f : Failure}
    (h : let s := ({ maxDepth } : Checker).askAll store supply asked
      (s.1.isSubtype store s.2 c.sub c.sup).1 = .failure f) :
    maxDepth = 0 ∧ f = ⟨.depthExceeded, []⟩ ∨
    ∃ places, f.path = places.map Place.step ∧ places.head? = some (.types c) ∧
      places.IsChain store.Premise ∧ store.Explains maxDepth places f.reason ∧
      (∀ d, f.reason = .unknownPair d → places.getLast? = some (.types d)) ∧
      (∀ name, f.reason = .blockMismatch name →
        ∃ a b, places.getLast? = some (.overloads name a b) ∧ a.block.isSome ≠ b.block.isSome) ∧
      (∀ name, f.reason = .methodMissing name →
        (∃ p q, places.getLast? = some (.method p q) ∧ q.name = name ∧ p.overloads = [] ∧
          q.overloads ≠ []) ∨
        ∃ d sub sup, places.getLast? = some (.types d) ∧ store.Faces d sub sup ∧
          (∃ q ∈ sup.methods, q.name = name) ∧ sub.method? name = none) ∧
      ∀ name, f.reason = .parameterMismatch name →
        (∃ a b, places.getLast? = some (.overloads name a b) ∧ a.Misfits b) ∨
          ∃ a b d, a.Passes b d ∧ [.overloads name a b, .types d] <:+: places := by
  have hnew : ({ maxDepth } : Checker).kept.Explained store := fun d f hd => nomatch hd
  have hkept := askAll_explained hnew supply asked
  have hroom := askAll_room { maxDepth } store supply asked
  rw [Nat.sub_zero] at hroom
  obtain ⟨f, hf, rfl⟩ := (check_explained [] [] c ⟨_, _⟩ hkept).failure f h
  rw [hroom] at hf
  rcases hf with hf | ⟨f, ⟨places, hpath, hexplains⟩, rfl⟩
  · exact .inl hf
  · have hblames := hexplains.blames
    refine .inr ⟨.types c :: places, ?_, rfl, hblames.isChain, hexplains,
      fun d => hblames.last_of_unknownPair, fun name => hblames.last_of_blockMismatch,
      fun name => hblames.last_of_methodMissing, fun name => hblames.misfits_or_passes⟩
    rw [Failure.after, Failure.after, hpath]
    rfl

/-- The end of the path was found when it was asked for by itself. -/
theorem isSubtype_explained_takers :
    let c : Constraint := ⟨.name ⟨1⟩ .interface [], .name ⟨2⟩ .interface []⟩
    let s := ({ maxDepth := 5 } : Checker).askAll takers {} [⟨.bool, .nil⟩]
    let path := [.types c, .method ⟨3⟩,
      .overloads ⟨3⟩ { params := { required := [.nil] }, result := .void }
        { params := { required := [.bool] }, result := .void },
      .types ⟨.bool, .nil⟩]
    (s.1.isSubtype takers s.2 c.sub c.sup).1 = .failure ⟨.parameterMismatch ⟨3⟩, path⟩ ∧
      ∃ places, path = places.map Place.step ∧
        takers.Explains 5 places (.parameterMismatch ⟨3⟩) := by
  intro c s path
  have hfails : (s.1.isSubtype takers s.2 c.sub c.sup).1 =
      .failure ⟨.parameterMismatch ⟨3⟩, path⟩ := by
    decide +kernel
  refine ⟨hfails, ?_⟩
  rcases isSubtype_explained hfails with ⟨hroom, _⟩ | ⟨places, hpath, _, _, hexplains, _⟩
  · exact absurd hroom (by decide)
  · exact ⟨places, hpath, hexplains⟩

end Checker

end Subtyping
