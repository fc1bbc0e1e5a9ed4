import ProofAssistant.Proofs.HeadReduction
import ProofAssistant.Proofs.LevelInstances
import ProofAssistant.Tactic.Elimination

/-!
# The fields of a constructor

The type of a constructor on some parameters is a product over its fields (`Env.specializes_of_fieldsType`). The
declaration takes the parameters off the type by reduction, in an older environment and with hypotheses for the
parameters, so this needs that reduction passes levels, larger environments and replacements.
-/

namespace ProofAssistant

open Term List Option Replacement

variable {s : Replacement} {type m b selfApp r : Term} {t : InductiveType} {E env'' : Env}

/-! ## Counting binders -/

/-- Puts indices and hypotheses only. -/
structure Replacement.OfPlaces (s : Replacement) : Prop where
  var : ∀ i, (s.var i).IsPlace
  free : ∀ x, (s.free x).IsPlace

namespace Term

lemma IsPlace.shift (h : m.IsPlace) : m.shift.IsPlace := by
  cases m with
  | var i | free x => trivial
  | _ => exact h.elim

end Term

lemma Replacement.OfPlaces.up (h : s.OfPlaces) : s.up.OfPlaces where
  var i := by
    cases i with
    | zero => trivial
    | succ i => exact (h.var i).shift
  free x := (h.free x).shift

lemma Replacement.ofPlaces_single (x : Id) : (single (.free x)).OfPlaces where
  var i := by cases i <;> trivial
  free _ := trivial

namespace Term

/-- What a product leads to. -/
def codomain : Term → Term
  | .pi _ _ _ b => b.codomain
  | m => m

lemma numBinders_replace (h : ¬ m.codomain.IsPlace) (s : Replacement) : (m.replace s).numBinders = m.numBinders := by
  induction m generalizing s with
  | pi x i t b _ ihb => exact congrArg (· + 1) (ihb h s.up)
  | var i | free x => exact absurd trivial h
  | _ => rfl

lemma numBinders_replace_of_places (m : Term) (hs : s.OfPlaces) :
    (m.replace s).numBinders = m.numBinders ∧ ((m.replace s).codomain.IsPlace ↔ m.codomain.IsPlace) := by
  have hplace {m : Term} (h : m.IsPlace) : m.numBinders = 0 ∧ m.codomain.IsPlace := by
    cases m with
    | var i | free x => exact ⟨rfl, trivial⟩
    | _ => exact h.elim
  induction m generalizing s with
  | pi x i t b _ ihb =>
    obtain ⟨hnum, hcod⟩ := ihb hs.up
    exact ⟨congrArg (· + 1) hnum, hcod⟩
  | var i => exact ⟨(hplace (hs.var i)).1, iff_of_true (hplace (hs.var i)).2 trivial⟩
  | free x => exact ⟨(hplace (hs.free x)).1, iff_of_true (hplace (hs.free x)).2 trivial⟩
  | _ => exact ⟨rfl, Iff.rfl⟩

lemma numBinders_mapLevels (f : Level → Level) (m : Term) :
    (m.mapLevels f).numBinders = m.numBinders ∧ ((m.mapLevels f).codomain.IsPlace ↔ m.codomain.IsPlace) := by
  induction m with
  | pi x i t b _ ihb => exact ⟨congrArg (· + 1) ihb.1, ihb.2⟩
  | _ => exact ⟨rfl, Iff.rfl⟩

/-- A hypothesis that does not occur may be put for the variable of a binder before another term is. -/
lemma instantiate_free_replace {S : Scope} {k : Nat} {x : Id} (hb : b.In S k) (hx : ¬ S.free x)
    (s : Replacement) (a : Term) : (b.instantiate (.free x)).replace (s.put x a) = (b.replace s.up).instantiate a := by
  rw [instantiate_eq_replace, instantiate_eq_replace, replace_replace, replace_replace]
  have hshift (m : Term) : m.shift.replace (.single a) = m := by
    rw [← instantiate_eq_replace, instantiate_shift]
  refine replace_congr hb (fun i _ => ?_) fun y hy => ?_
  · cases i with
    | zero => exact if_pos rfl
    | succ i => exact (hshift (s.var i)).symm
  · have hyx : y ≠ x := fun h => hx (h ▸ hy)
    exact (if_neg hyx).trans (hshift (s.free y)).symm

end Term

namespace InductiveSpec

variable {env : Env} {spec : InductiveSpec} {fuel next : Nat}

lemma numBinders_of_openFields {sort : Level} {c : Name} {Γ Γ' : Context} {rest : Term} {fields : List (Local × Bool)}
    (h : (openFields env spec sort selfApp c fuel next Γ type).Yields (fields, Γ', rest)) :
    type.numBinders = fields.length ∧ (type.codomain.IsPlace → rest.IsPlace) := by
  induction fuel generalizing next Γ type fields with
  | zero => simp [openFields] at h
  | succ fuel ih =>
    cases type with
    | pi x i t b =>
      obtain ⟨recursive, fields', _, _, hrec, rfl⟩ := openFields_pi h
      obtain ⟨hnum, hcod⟩ := ih hrec
      have hbody := numBinders_replace_of_places b (ofPlaces_single (Local.new next x t).id)
      rw [← instantiate_eq_replace] at hbody
      refine ⟨congrArg (· + 1) (hbody.1.symm.trans hnum), fun hplace => hcod (hbody.2.mpr hplace)⟩
    | _ =>
      obtain ⟨rfl, _, rfl⟩ := h
      exact ⟨rfl, id⟩

end InductiveSpec

namespace Env

open InductiveSpec Fueled

variable {env env' : Env}

/-! ## Where a family was declared -/

lemma Continues.trans (h : env.Continues env') (h' : env'.Continues env'') : env.Continues env'' where
  get? c d hd := by
    rcases h.get? c d hd with hd' | ⟨hkind, d', t, i, hd', hkind'⟩
    · exact h'.get? c d hd'
    · rcases h'.get? c d' hd' with hd'' | ⟨hkind'', _⟩
      · exact .inr ⟨hkind, d', t, i, hd'', hkind'⟩
      · exact nomatch hkind'.symm.trans hkind''
  recursors c d hd := by
    obtain ⟨d', hd'⟩ : ∃ d', env'.get? c = some d' := by
      rcases h.get? c d hd with hd' | ⟨_, d', _, _, hd', _⟩
      · exact ⟨d, hd'⟩
      · exact ⟨d', hd'⟩
    exact (h'.recursors c d' hd').trans (h.recursors c d hd)
  families n t ht := h'.families n t (h.families n t ht)

lemma Growth.continues (henv : Reachable env) (h : Growth env env') : env.Continues env' := by
  have hkeeps := h.keeps (familiesDeclared henv)
  refine ⟨fun c d hd => .inl (h.get?_eq hd), fun c d hd => ?_, hkeeps.ctor⟩
  cases hkind : d.kind with
  | recursor n =>
    obtain ⟨t, ht⟩ := family_of_recursor henv (mem_of_find?_eq_some hd) hkind
    simp only [recursorOf?, hd, h.get?_eq hd, map_some, hkind, ht, hkeeps.ctor n t ht]
  | _ => simp only [recursorOf?, hd, h.get?_eq hd, map_some, hkind]

/-- The family was declared in an environment that this one continues, together with its recursor. -/
def Declares (env' : Env) (t : InductiveType) : Prop :=
  ∃ (env : Env) (fuel next : Nat) (spec : InductiveSpec) (a : Accepted env fuel next spec),
    Reachable env ∧ spec.Below next ∧ t = a.info ∧ (env.insert spec.decl).Continues env' ∧
      (env.insert spec.decl).Keeps env' ∧ env'.recursorOf? spec.recursor = some a.info

lemma Declares.growth (h : env.Declares t) (henv : Reachable env) (hgrowth : Growth env env') : env'.Declares t := by
  obtain ⟨env₀, fuel, next, spec, a, henv₀, hb, rfl, hcont, hkeeps, hrec⟩ := h
  obtain ⟨d, _, hd, _⟩ := recursorOf?_eq_some_iff.mp hrec
  have hcont' := hgrowth.continues henv
  exact ⟨env₀, fuel, next, spec, a, henv₀, hb, rfl, hcont.trans hcont',
    hkeeps.trans (hgrowth.keeps (familiesDeclared henv)), (hcont'.recursors _ d hd).trans hrec⟩

lemma declares_of_reachable (h : Reachable env') (ht : t ∈ env'.inductives) : env'.Declares t := by
  induction h with
  | refl => simp at ht
  | @tail env env' henv hadd ih =>
    have hold (ht : t ∈ env.inductives) : env'.Declares t := (ih ht).growth henv hadd.growth
    cases hadd.growth with
    | decl d _ _ => exact hold ht
    | @family fuel next spec a hb =>
      rw [a.inductives_result] at ht
      rcases mem_cons.mp ht with rfl | ht
      · exact ⟨env, fuel, next, spec, a, henv, hb, rfl, continues_withType a hb henv,
          a.keeps_withType (familiesDeclared henv) hb,
          recursorOf?_eq_some_iff.mpr ⟨_, _, a.get?_recursor, rfl, a.inductive?_result⟩⟩
      · exact hold ht
    | registration _ hind _ => exact hold (hind ▸ ht)

/-! ## The type of a constructor on parameters -/

/-- The type leads to `rest` once arguments are put for its first variables. It is reduced as far as needed. -/
inductive Specializes (env : Env) : (args : List Term) → (type rest : Term) → Prop
  | nil {rest : Term} : Specializes env [] rest rest
  | cons {a : Term} {as : List Term} {type t b rest : Term} {x : Name} {i : Bool} :
    env.Steps type (.pi x i t b) → Specializes env as (b.instantiate a) rest → Specializes env (a :: as) type rest

lemma applyType_of_passParams {spec : InductiveSpec} {fuel n fuel' : Nat} (henv : env.Scoped)
    (hE : E.Scoped) (hcont : env.Continues E) (hkeeps : env.Keeps E) {σ : Name → Level} {Γ : Context}
    {c : Name × Term} {xs : List Local} {P : Id → Prop} (hxs : ∀ x ∈ xs, ¬ P x.id)
    (hnodup : (xs.map Local.id).Nodup) {rest : Term} (htype : type.In (env.scope spec.levelParams P) 0)
    (hpass : (passParams env spec fuel n Γ c xs type).Yields rest) {as : List Term} (hlen : xs.length = as.length)
    (h : E.applyType fuel' as ((type.mapLevels (·.put σ)).replace s) = some r) :
    E.Specializes as ((type.mapLevels (·.put σ)).replace s) r ∧
      r = (rest.mapLevels (·.put σ)).replace (s.putAll xs as) := by
  induction xs generalizing P type as s with
  | nil =>
    obtain rfl := length_eq_zero_iff.mp hlen.symm
    obtain rfl := yields_pure.mp hpass
    obtain rfl := Option.some.inj h
    exact ⟨.nil, rfl⟩
  | cons x xs ih =>
    cases as with
    | nil => simp at hlen
    | cons a as =>
      obtain ⟨hx, hxs⟩ := forall_mem_cons.mp hxs
      obtain ⟨hxx, hnodup⟩ := nodup_cons.mp hnodup
      obtain ⟨y, i, t, b, hwhnf, _, hpass⟩ := passParams_cons hpass
      have hS := henv.admits_scope spec.levelParams P
      have hb : b.In (env.scope spec.levelParams P) 1 := ((steps_of_whnf hwhnf).in_scope hS htype).2
      -- the same reduction in the larger environment, at the levels and for the parameters given
      have hwhnf' : E.whnf fuel type = some (.pi y i t b) := by
        have hput := (hcont.relabels henv spec.levelParams P).whnf hS htype id fuel
        rwa [relabel_id, hwhnf, map_some, relabel_id] at hput
      have hlevels : E.whnf fuel (type.mapLevels (·.put σ)) = some ((pi y i t b).mapLevels (·.put σ)) := by
        rw [whnf_mapLevels hE (htype.widen (hkeeps.scope_le _ _)), hwhnf', map_some]
      have hreplaced := whnf_replace hE.admits_noFree hlevels (settled_pi ..) s
      obtain ⟨type', hwhnf'', h⟩ := bind_eq_some_iff.mp h
      rw [whnf_unique hwhnf'' hreplaced] at h
      have hb' : (b.mapLevels (·.put σ)).In { free := P } 1 := hb.mapLevels_free _
      have hbody : ((b.mapLevels (·.put σ)).replace s.up).instantiate a =
          ((b.instantiate x.term).mapLevels (·.put σ)).replace (s.put x.id a) := by
        rw [mapLevels_instantiate]
        exact (instantiate_free_replace hb' hx s a).symm
      have hnext : E.applyType fuel' as (((b.mapLevels (·.put σ)).replace s.up).instantiate a) = some r := h
      rw [hbody] at hnext
      have hopened : (b.instantiate x.term).In (env.scope spec.levelParams fun y => P y ∨ y = x.id) 0 :=
        .instantiate (hb.widen { free := fun y (hy : P y) => Or.inl hy }) (.inr rfl)
      have hfresh : ∀ y ∈ xs, ¬ (P y.id ∨ y.id = x.id) := by
        rintro y hy (hP | hyx)
        · exact hxs y hy hP
        · exact hxx (hyx ▸ mem_map_of_mem hy)
      obtain ⟨hspecial, hr⟩ := ih hfresh hnodup hopened hpass (by simpa using hlen) hnext
      rw [← hbody] at hspecial
      exact ⟨.cons (steps_of_whnf hreplaced) hspecial, hr⟩

/-- The type of a constructor on parameters has as many binders as the constructor has fields. -/
lemma specializes_of_fieldsType (hE : Reachable E) {T : FamilyInstance}
    (hT : E.inductive? T.family.name = some T.family) (hparams : T.params.length = T.family.numParams)
    {k : Constructor} (hk : k ∈ T.family.ctors) {fuel : Nat} (h : E.fieldsType fuel T k = some type) :
    E.Specializes T.params (k.type.instantiateLevelParams T.family.levelParams T.levels) type ∧
      type.numBinders = k.numFields := by
  obtain ⟨env, fuel₀, next, spec, a, henv, hb, hinfo, hcont, hkeeps, _⟩ :=
    declares_of_reachable hE (name_of_inductive? hT).1
  rw [hinfo] at hk hparams
  obtain ⟨o, ho, rfl⟩ := mem_map.mp hk
  have htype := a.ctor_type_in hb ho
  obtain ⟨c, hc, hacc⟩ := a.exists_ctor ho
  obtain ⟨rest, fields, Γ, result, hpass, hopen, hresult, rfl⟩ := hacc.opened
  obtain ⟨hnum, hcod⟩ := numBinders_of_openFields hopen
  have hwithType : (env.insert spec.decl).Scoped := (scoped_of_reachable henv).withType a hb
  have hlen : a.params.length = T.params.length := a.params_length.trans hparams.symm
  have hnodup : (a.params.map Local.id).Nodup := by
    have h := a.params_motive_nodup
    rw [map_append, nodup_append] at h
    exact h.1
  have hplace : ¬ rest.codomain.IsPlace := by
    intro hrest
    have hself : (spec.selfApp a.params).containsConst spec.name :=
      containsConst_apply (by simp [containsConst])
    rw [← containsConst_eq_of_alphaEq hresult] at hself
    cases result with
    | var i | free x => simp [containsConst] at hself
    | _ => exact hcod hrest
  rw [fieldsType, instantiateLevelParams_eq_mapLevels, ← replace_id (mapLevels _ _)] at h
  rw [instantiateLevelParams_eq_mapLevels, ← replace_id (mapLevels _ _)]
  obtain ⟨hspecial, htype⟩ := applyType_of_passParams hwithType (scoped_of_reachable hE) hcont hkeeps
    (fun _ _ => id) hnodup htype hpass hlen h
  refine ⟨hspecial, ?_⟩
  rw [htype, numBinders_replace, (numBinders_mapLevels _ rest).1, hnum]
  rwa [(numBinders_mapLevels _ rest).2]

end Env

end ProofAssistant
