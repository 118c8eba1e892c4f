import Mathlib.Data.List.Basic
import Subtyping.Proofs.Occurrence
import Subtyping.Proofs.Relabel.Ty

/-!
# Relabelling the variables of signatures

Signatures, methods and method tables carry their variables in types, and a signature also binds
some. `relabel_subst` and `relabel_withVars` say that relabelling commutes with both ways in which
the binder of a signature is passed, and `expand_relabel` that the method table of a name comes out
relabelled when its arguments are, as long as the store itself mentions no variable with a new label.
-/

namespace Subtyping

variable {ρ : TypeVar → TypeVar}

namespace Assoc

variable {κ α β : Type} [DecidableEq κ]

theorem get?_map_of_eq {f : κ → κ} (g : α → β) {m : List (κ × α)} {k : κ}
    (hf : ∀ l ∈ keys m, f k = f l → k = l) :
    get? (f k) (m.map fun e => (f e.1, g e.2)) = (get? k m).map g := by
  induction m with
  | nil => rfl
  | cons e m ih =>
      rw [List.map_cons, get?, get?]
      by_cases h : k = e.1
      · rw [if_pos h, if_pos (congrArg f h)]
        rfl
      · rw [if_neg h, if_neg fun he => h (hf e.1 List.mem_cons_self he)]
        exact ih fun l hl => hf l (List.mem_cons_of_mem e.1 hl)

theorem get?_map_of_injective {f : κ → κ} (hf : Function.Injective f) (g : α → β)
    (m : List (κ × α)) (k : κ) :
    get? (f k) (m.map fun e => (f e.1, g e.2)) = (get? k m).map g := by
  apply get?_map_of_eq
  intro l _ h
  exact hf h

end Assoc

namespace Substitution

theorem Relabels.pairing (hρ : Function.Injective ρ) (vs : List TypeVar) (ts : List Ty) :
    Relabels ρ (pairing vs ts) (pairing (vs.map ρ) (ts.map (Ty.relabel ρ))) where
  get? v := by
    rw [get?_pairing, get?_pairing, List.zip_map, ← List.map_reverse]
    exact Assoc.get?_map_of_injective hρ _ _ v
  isLabel w hw := by
    obtain ⟨t, ht⟩ := Option.ne_none_iff_exists'.mp hw
    obtain ⟨v, _, hv⟩ := List.mem_map.mp (mem_of_get?_pairing ht).1
    exact ⟨v, hv⟩
  placeholder? p := by cases p <;> rfl

theorem Relabels.except (hρ : Function.Injective ρ) {s s' : Substitution} (h : Relabels ρ s s')
    (vs : List TypeVar) : Relabels ρ (s.except vs) (s'.except (vs.map ρ)) where
  get? v := by
    rw [get?_except, get?_except, h.get?]
    by_cases hv : v ∈ vs
    · rw [if_pos hv, if_pos (List.mem_map_of_mem hv)]
      rfl
    · rw [if_neg hv, if_neg (mt (List.mem_map_of_injective hρ).mp hv)]
  isLabel w hw := by
    rw [get?_except] at hw
    by_cases hv : w ∈ vs.map ρ
    · obtain ⟨v, _, he⟩ := List.mem_map.mp hv
      exact ⟨v, he⟩
    · rw [if_neg hv] at hw
      exact h.isLabel w hw
  placeholder? p := h.placeholder? p

theorem Relabels.placeholder?_eq_none_iff {s s' : Substitution} (h : Relabels ρ s s') :
    (∀ p, s'.placeholder? p = none) ↔ ∀ p, s.placeholder? p = none := by
  refine forall_congr' fun p => ?_
  rw [h.placeholder?, Option.map_eq_none_iff]

end Substitution

namespace Signature

/-- A signature with other variables in the places of its variables, its type parameters among
them. -/
def relabel (ρ : TypeVar → TypeVar) (m : Signature) : Signature :=
  { m.mapTypes (Ty.relabel ρ) with typeParams := m.typeParams.map ρ }

theorem relabel_eq_self {m : Signature} (hp : ∀ v ∈ m.typeParams, ρ v = v)
    (ht : ∀ t ∈ m.types, ∀ v ∈ t.vars, ρ v = v) : m.relabel ρ = m := by
  have hvs : m.typeParams.map ρ = m.typeParams := by
    have := List.map_congr_left (g := id) hp
    rwa [List.map_id] at this
  have hm : m.mapTypes (Ty.relabel ρ) = m := by
    have hid : ∀ t ∈ m.types, t.relabel ρ = id t := fun t h => Ty.relabel_eq_self (ht t h)
    have hmap : m.mapTypes (Ty.relabel ρ) = m.mapTypes id := mapTypes_congr hid
    rw [hmap, mapTypes_id]
  rw [relabel, hm, hvs]

theorem mem_freeVars_relabel (hρ : Function.Injective ρ) (m : Signature) (w : TypeVar) :
    w ∈ (m.relabel ρ).freeVars ↔ ∃ v ∈ m.freeVars, ρ v = w := by
  have htypes : (m.relabel ρ).types = m.types.map (Ty.relabel ρ) :=
    types_mapTypes (Ty.relabel ρ) m
  have hvars : (m.relabel ρ).types.flatMap Ty.vars = (m.types.flatMap Ty.vars).map ρ := by
    rw [htypes, List.flatMap_map, List.map_flatMap]
    simp only [Ty.vars_relabel]
  simp only [freeVars, hvars, List.mem_filter, List.mem_map, decide_eq_true_eq]
  constructor
  · rintro ⟨⟨v, hv, rfl⟩, hw⟩
    exact ⟨v, ⟨hv, fun h => hw (List.mem_map_of_mem h)⟩, rfl⟩
  · rintro ⟨v, ⟨hv, hn⟩, rfl⟩
    exact ⟨⟨v, hv, rfl⟩, mt (List.mem_map_of_injective hρ).mp hn⟩

theorem relabel_instantiate (hρ : Function.Injective ρ) {s s' : Substitution}
    (h : s.Relabels ρ s') (m : Signature) :
    (m.relabel ρ).instantiate s' = (m.instantiate s).relabel ρ := by
  have hm : (m.mapTypes (Ty.relabel ρ)).mapTypes (Ty.subst s') =
      (m.mapTypes (Ty.subst s)).mapTypes (Ty.relabel ρ) := by
    rw [mapTypes_mapTypes, mapTypes_mapTypes]
    exact mapTypes_congr fun t _ => h.subst hρ t
  exact congrArg (fun n : Signature => { n with typeParams := [] }) hm

theorem relabel_subst (hρ : Function.Injective ρ) {s s' : Substitution} (h : s.Relabels ρ s')
    (m : Signature) : (m.relabel ρ).subst s' = (m.subst s).relabel ρ := by
  have hempty : s'.isEmpty = s.isEmpty := by
    rw [Bool.eq_iff_iff, Substitution.isEmpty_iff, Substitution.isEmpty_iff,
      h.placeholder?_eq_none_iff]
    refine and_congr_right fun _ => ⟨fun hn v => ?_, fun hn w => ?_⟩
    · have := hn (ρ v)
      rwa [h.get?, Option.map_eq_none_iff] at this
    · by_contra hw
      obtain ⟨v, rfl⟩ := h.isLabel w hw
      exact hw (by rw [h.get?, hn v]; rfl)
  have hdisjoint : s'.isDisjoint (m.relabel ρ).freeVars = s.isDisjoint m.freeVars := by
    rw [Bool.eq_iff_iff, Substitution.isDisjoint_iff, Substitution.isDisjoint_iff,
      h.placeholder?_eq_none_iff]
    refine and_congr_right fun _ => ⟨fun hn v hv => ?_, fun hn w hw => ?_⟩
    · have := hn (ρ v) ((mem_freeVars_relabel hρ m _).mpr ⟨v, hv, rfl⟩)
      rwa [h.get?, Option.map_eq_none_iff] at this
    · obtain ⟨v, hv, rfl⟩ := (mem_freeVars_relabel hρ m w).mp hw
      rw [h.get?, hn v hv]
      rfl
  rw [subst, subst, hempty, hdisjoint]
  split
  · rfl
  · have hi := relabel_instantiate hρ (h.except hρ m.typeParams) m
    exact congrArg (fun n : Signature => { n with typeParams := m.typeParams.map ρ }) hi

theorem relabel_withVars (hρ : Function.Injective ρ) (m : Signature) (vs : List TypeVar) :
    (m.relabel ρ).withVars (vs.map ρ) = (m.withVars vs).relabel ρ := by
  have hvars : (vs.map ρ).map Ty.var = (vs.map Ty.var).map (Ty.relabel ρ) := by
    rw [List.map_map, List.map_map]
    rfl
  have hs : Substitution.Relabels ρ (.rename m.typeParams vs)
      (.rename (m.relabel ρ).typeParams (vs.map ρ)) := by
    rw [Substitution.rename, Substitution.rename, hvars]
    exact Substitution.Relabels.pairing hρ _ _
  have hempty : (m.relabel ρ).typeParams.isEmpty = m.typeParams.isEmpty := by
    rw [relabel, List.isEmpty_map]
  rw [withVars, withVars, hempty]
  split
  · rfl
  · exact relabel_instantiate hρ hs m

end Signature

/-- A method with other variables in the places of its variables. -/
def Method.relabel (ρ : TypeVar → TypeVar) (m : Method) : Method :=
  { m with overloads := m.overloads.map (Signature.relabel ρ) }

/-- A method table with other variables in the places of its variables. -/
def Interface.relabel (ρ : TypeVar → TypeVar) (i : Interface) : Interface :=
  ⟨i.methods.map (Method.relabel ρ)⟩

theorem Interface.method?_relabel (i : Interface) (name : Atom) :
    (i.relabel ρ).method? name = (i.method? name).map (Method.relabel ρ) := by
  rw [method?, method?, relabel, List.find?_map]
  rfl

theorem Signature.relabel_eq_self_of_vars {m : Signature} (h : ∀ v ∈ m.vars, ρ v = v) :
    m.relabel ρ = m := by
  apply relabel_eq_self
  · exact fun v hv => h v (List.mem_append_left _ hv)
  · exact fun t ht v hv => h v (mem_vars_of_mem_types ht hv)

theorem Template.instantiate_relabel (hρ : Function.Injective ρ) {t : Template}
    (ht : ∀ v ∈ t.vars, ρ v = v) (self : Ty) (args : List Ty) (inst : Ty)
    (singleton : Option Ty) :
    t.instantiate (self.relabel ρ) (args.map (Ty.relabel ρ)) (inst.relabel ρ)
        (singleton.map (Ty.relabel ρ)) =
      (t.instantiate self args inst singleton).relabel ρ := by
  have hvs : t.typeParams.map ρ = t.typeParams := by
    have := List.map_congr_left (g := id) fun v hv => ht v (List.mem_append_left _ hv)
    rwa [List.map_id] at this
  have hargs : (args.map (Ty.relabel ρ)).rightpad t.typeParams.length .any =
      (args.rightpad t.typeParams.length .any).map (Ty.relabel ρ) := by
    simp [List.rightpad]
  have hp := Substitution.Relabels.pairing hρ t.typeParams
    (args.rightpad t.typeParams.length .any)
  rw [hvs, ← hargs] at hp
  have hs : (t.binding self args inst singleton).Relabels ρ
      (t.binding (self.relabel ρ) (args.map (Ty.relabel ρ)) (inst.relabel ρ)
        (singleton.map (Ty.relabel ρ))) :=
    ⟨hp.get?, hp.isLabel, fun p => by cases p <;> rfl⟩
  simp only [instantiate, Interface.relabel, List.map_map]
  refine congrArg Interface.mk (List.map_congr_left fun m hm => ?_)
  simp only [Function.comp_apply, Method.relabel, List.map_map, Method.mk.injEq, true_and]
  refine List.map_congr_left fun o ho => ?_
  have hself : o.relabel ρ = o := Signature.relabel_eq_self_of_vars fun v hv =>
    ht v (mem_vars_of_mem_overloads hm ho hv)
  have := Signature.relabel_subst hρ hs o
  rwa [hself] at this

/-- The table of a name at relabelled arguments is the relabelled table. -/
theorem Store.expand_relabel (hρ : Function.Injective ρ) {store : Store}
    (h : ∀ v ∈ store.vars, ρ v = v) (name : Atom) (kind : NameKind) (args : List Ty) :
    store.expand name kind (args.map (Ty.relabel ρ)) =
      (store.expand name kind args).map (Interface.relabel ρ) := by
  have hobject : (store.object? name).map (Ty.relabel ρ) = store.object? name := by
    unfold Store.object?
    split
    · simp [Ty.classObject]
    · split <;> simp [Ty.moduleObject]
  unfold Store.expand Store.template Store.template?
  cases hfind : store.templates.find? (isFor name kind) with
  | none => rfl
  | some e =>
      have he : ∀ v ∈ e.2.vars, ρ v = v := fun v hv =>
        h v (List.mem_flatMap.mpr ⟨e, List.mem_of_find?_eq_some hfind, hv⟩)
      have := Template.instantiate_relabel hρ he (.name name kind args) args
        (.instancesOf name args) (store.object? name)
      rw [hobject, Ty.relabel_name, Ty.instancesOf, Ty.relabel_name] at this
      exact congrArg Except.ok this

end Subtyping
