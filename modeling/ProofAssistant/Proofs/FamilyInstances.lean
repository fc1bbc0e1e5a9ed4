import ProofAssistant.Proofs.CaseHypotheses
import ProofAssistant.Proofs.Positivity
import ProofAssistant.Proofs.TelescopeInstances

/-!
# Instances of inductive types

A hypothesis of an inductive type gives levels and parameters for the declaration. `FamilyInstance.Typed` says that
these are such as the declaration asks for, which follows from the type of the hypothesis being one
(`Env.FamilyDeclared.typed_instance`), in every environment that the operations lead to (`Env.exists_familyDeclared`).
-/

namespace ProofAssistant

open List Replacement Term Level Scope

variable {xs : List Local}
variable {S : Scope} {s : Replacement}

open InductiveSpec

/-- The levels of the declaration where it is used. -/
def FamilyInstance.levelAt (T : FamilyInstance) (l : Level) : Level :=
  l.instantiateParams T.family.levelParams T.levels

/-- The levels and parameters are such as the declaration asks for. -/
structure FamilyInstance.Typed (T : FamilyInstance) (env : Env) (ps : List Name) (Γ : Context) {E : Env}
    {fuel next : Nat} {spec : InductiveSpec} (a : Accepted E fuel next spec) : Prop where
  family : T.family = a.info
  levels_length : spec.levelParams.length = T.levels.length
  levels_admitted : ∀ l ∈ T.levels, l.Admitted ps
  params_length : a.params.length = T.params.length
  params : env.ArgsTyped ps Γ [] .id (a.params.map (·.mapLevels T.levelAt)) T.params

namespace Env

variable {env : Env} {ps : List Name} {Γ : Context} {E : Env} {fuel next : Nat} {spec : InductiveSpec}
  {a : Accepted E fuel next spec}

/-! ## Declarations in an environment -/

/-- What is known of an accepted inductive declaration: of its constructors, its recursor and the type itself. -/
structure FamilyDeclared (env : Env) {E : Env} {fuel next : Nat} {spec : InductiveSpec}
    (a : Accepted E fuel next spec) : Prop where
  typed : env.FamilyTyped a
  decl : spec.decl ∈ env.decls
  target_in : a.target.In (noFree.pushAll a.params) 0
  product : env.IsType spec.levelParams {} [] (a.target.pis a.params)
  conv : env.Conv spec.type (a.target.pis a.params)

lemma FamilyDeclared.extend {env' : Env} (hext : env.Extends env')
    (hget : ∀ c d, env.get? c = some d → env'.get? c = some d) (h : env.FamilyDeclared a) : env'.FamilyDeclared a :=
  ⟨h.typed.extend hext hget, hext.decls _ h.decl, h.target_in, h.product.extend hext, h.conv.extend hext⟩

lemma Sound.familyDeclared (hfam : E.FamiliesDeclared) (henv : E.Sound) (hb : spec.Below next) :
    a.result.FamilyDeclared a := by
  have hext := (Growth.family a hb).extends hfam
  obtain ⟨hparams, htarget, hconv⟩ := a.type_product henv.typed henv.iota hb
  have hproduct := IsType.pis henv.typed.inScope empty_scoped hparams htarget
  refine ⟨henv.familyTyped a hb hfam, (extends_withType a hb hfam).decls _ mem_cons_self, ?_,
    hproduct.extend hext, hconv.extend hext⟩
  obtain ⟨_, hl⟩ := htarget
  refine Term.In.widen (freeOnly_noFree.pushAll _) (hl.in_scope.widen ?_)
  exact { free := fun y hy => (pushAll_free _ _ _).mpr (.inr hy) }

lemma exists_familyDeclared (h : Reachable env)
    (hnodup : ∀ t ∈ env.inductives, t.ctors ≠ [] → t.levelParams.Nodup) {t : InductiveType} (ht : t ∈ env.inductives) :
    ∃ (E : Env) (fuel next : Nat) (spec : InductiveSpec) (a : Accepted E fuel next spec),
      t = a.info ∧ env.FamilyDeclared a := by
  induction h with
  | refl => exact nomatch ht
  | @tail env env' hreach hadd ih =>
    have hfam := familiesDeclared hreach
    have hgrowth := hadd.growth
    -- a declaration that was there before is still there
    have hold (hnodup : ∀ t ∈ env.inductives, t.ctors ≠ [] → t.levelParams.Nodup) (ht : t ∈ env.inductives) :
        ∃ (E : Env) (fuel next : Nat) (spec : InductiveSpec) (a : Accepted E fuel next spec),
          t = a.info ∧ env'.FamilyDeclared a := by
      obtain ⟨E, fuel, next, spec, a, ht, ha⟩ := ih hnodup ht
      exact ⟨E, fuel, next, spec, a, ht, ha.extend (hgrowth.extends hfam) fun _ _ => hgrowth.get?_eq⟩
    cases hadd.growth with
    | decl d hfresh hacc => exact hold hnodup ht
    | @family fuel next spec a hb =>
      rw [a.inductives_result, forall_mem_cons] at hnodup
      rw [a.inductives_result] at ht
      rcases mem_cons.mp ht with rfl | ht
      · exact ⟨env, fuel, next, spec, a, rfl, (sound_of_reachable hreach hnodup.2).familyDeclared hfam hb⟩
      · exact hold hnodup.2 ht
    | registration hdecls hind _ => exact hold (hind ▸ hnodup) (hind ▸ ht)

/-- The levels and parameters of an instance of the type, where it is a type. -/
lemma FamilyDeclared.typed_instance (henv : env.WellTyped) (hΓ : env.ContextTyped ps Γ) (h : env.FamilyDeclared a)
    {T : FamilyInstance} (hfamily : T.family = a.info) (hlen : T.params.length = T.family.numParams)
    (htype : env.IsType ps Γ [] ((const T.family.name T.levels).apply T.params)) : T.Typed env ps Γ a := by
  have hname : spec.name = T.family.name := by rw [hfamily]; rfl
  have hlevelParams : spec.levelParams = T.family.levelParams := by rw [hfamily]; rfl
  have hparamsLength : a.params.length = T.params.length := by
    rw [a.params_length, hlen, hfamily]
    rfl
  obtain ⟨l, hl⟩ := htype
  obtain ⟨F, hF⟩ := hl.head
  obtain ⟨d, hd, hdname, hkind, hlevels, hls, _⟩ := hF.const_inv
  obtain rfl : spec.decl = d := henv.unique _ h.decl d hd (fun _ _ => nofun) hkind (hname.trans hdname.symm)
  have hconst : env.HasType True ps Γ [] (.const T.family.name T.levels)
      (((a.target.mapLevels T.levelAt).pis (a.params.map (·.mapLevels T.levelAt))).replace .id) := by
    have hconv := h.conv.mapLevels henv.inScope spec.levelParams T.levels
    have hproduct := h.product.instantiateLevelParams henv.inScope hlevels hls Γ []
    rw [instantiateLevelParams_eq_mapLevels] at hproduct
    have hdecl : env.HasType True ps Γ [] (.const T.family.name T.levels) _ := .const hd hdname hkind hlevels hls
    rw [instantiateLevelParams_eq_mapLevels] at hdecl
    have hconst := hdecl.conv_type hconv hproduct
    rw [hlevelParams] at hconst
    rw [replace_id, ← mapLevels_pis]
    exact hconst
  have hparamsIn : Local.AllIn noFree a.params := h.typed.params.mono (levelScope_le_noFree _)
  refine ⟨hfamily, hlevels, hls, hparamsLength, ?_⟩
  refine (HasType.apply_inv henv hΓ bindersTyped_nil (hparamsIn.mapLevels freeOnly_noFree _) ?_ ?_ hconst hl).1
  · rw [pushAll_mapLevels]
    exact h.target_in.mapLevels_of_freeOnly (freeOnly_noFree.pushAll _) _
  · rw [length_map, hparamsLength]

/-! ## Products on arguments and hypotheses -/

lemma Specializes.typed (henv : env.WellTyped) (hiota : env.IotaTyped) (hΓ : env.ContextTyped ps Γ)
    {m type rest : Term} {as : List Term} (h : env.Specializes as type rest)
    (hxs : Local.AllIn S xs) (hm : m.In (S.pushAll xs) 0) (hargs : env.ArgsTyped ps Γ [] s xs as)
    (htype : env.IsType ps Γ [] type) (hconv : env.Conv type ((m.pis xs).replace s)) :
    env.IsType ps Γ [] rest ∧ env.Conv rest (m.replace (s.putAll xs as)) := by
  induction h generalizing S xs s with
  | nil =>
    cases hargs
    rw [pis_nil] at hconv
    exact ⟨htype, hconv⟩
  | @cons a as type t b rest x i hsteps _ ih =>
    cases hargs with
    | cons ha hargs =>
      rw [pis_cons] at hconv
      obtain ⟨hdom, hcod⟩ := ((Conv.of_steps hsteps).symm.trans hconv).pi_inj henv.admits_noFree
      obtain ⟨l, hl⟩ := htype
      obtain ⟨l₁, l₂, ht, hb, _⟩ := (hl.steps henv hiota hΓ bindersTyped_nil hsteps).pi_inv
      have hrest := hb.instantiate henv.inScope hΓ.inScope (ha.conv_type hdom.symm ⟨l₁, ht⟩)
      have hcod := hcod.instantiate henv.admits_noFree (.refl a)
      rw [replace_close_instantiate (Term.In.pis hxs.2 hm)] at hcod
      exact ih hxs.2 hm hargs ⟨l₂, hrest⟩ hcod

end Env

namespace Term.OpenedBy

open Env

variable {env : Env} {ps : List Name} {Γ : Context} {m rest : Term} {ys : List Local}

lemma typed (henv : env.WellTyped) (hiota : env.IotaTyped) (hΓ : env.ContextTyped ps Γ) (h : m.OpenedBy ys rest)
    (hm : env.IsType ps Γ [] m) (hnodup : (ys.map Local.id).Nodup) (hfresh : ∀ y ∈ ys, y.id ∉ Γ.ids) :
    env.TelescopeTyped ps Γ ys := by
  induction h generalizing Γ with
  | nil => trivial
  | @cons y ys x i b rest _ ih =>
    obtain ⟨hy, hfresh⟩ := forall_mem_cons.mp hfresh
    obtain ⟨hyy, hnodup⟩ := nodup_cons.mp hnodup
    obtain ⟨htype, hbody⟩ := hm.opened henv hiota hΓ (.refl _)
    refine ⟨htype, hy, ih (hΓ.add henv.inScope hy htype) (hbody y hy (.refl _) htype) hnodup ?_⟩
    exact Context.fresh_add hfresh hyy

/-- Where a type is convertible to a product over a telescope, it is opened by an instance of it. -/
lemma telescopeInstance (henv : env.WellTyped) (h : m.OpenedBy ys rest) {m' : Term}
    (hlen : xs.length = ys.length) (hxs : Local.AllIn S xs) (hm' : m'.In (S.pushAll xs) 0)
    (hconv : env.Conv m ((m'.pis xs).replace s)) : env.TelescopeInstance s xs ys := by
  induction h generalizing S xs s with
  | nil =>
    obtain rfl := length_eq_zero_iff.mp hlen
    exact .nil s
  | @cons y ys x i b rest _ ih =>
    cases xs with
    | nil => exact nomatch hlen
    | cons x' xs =>
      rw [pis_cons] at hconv
      obtain ⟨hdom, hcod⟩ := hconv.pi_inj henv.admits_noFree
      have hcod := hcod.instantiate henv.admits_noFree (.refl y.term)
      rw [replace_close_instantiate (In.pis hxs.2 hm')] at hcod
      exact .cons hdom (ih (Nat.succ.inj hlen) hxs.2 hm' hcod)

end Term.OpenedBy

/-! ## Fields and levels -/

lemma mem_recursiveFields {k : Constructor} {fields : List Local} {x : Local} :
    x ∈ k.recursiveFields fields ↔ ∃ j : Nat, fields[j]? = some x ∧ k.recursive[j]? = some true := by
  rw [Constructor.recursiveFields, mem_map]
  constructor
  · rintro ⟨⟨y, r⟩, hy, rfl⟩
    obtain ⟨hzip, hr⟩ := mem_filter.mp hy
    obtain ⟨j, hj⟩ := mem_iff_getElem?.mp hzip
    obtain ⟨hfield, hrec⟩ := getElem?_zip_eq_some.mp hj
    exact ⟨j, hfield, hrec.trans (congrArg some hr)⟩
  · rintro ⟨j, hfield, hrec⟩
    have hj : (fields.zip k.recursive)[j]? = some (x, true) := getElem?_zip_eq_some.mpr ⟨hfield, hrec⟩
    exact ⟨(x, true), mem_filter.mpr ⟨mem_of_getElem? hj, rfl⟩, rfl⟩

lemma recursiveFields_map {α β : Type} (k : Constructor) (f : α → β) (fields : List α) :
    k.recursiveFields (fields.map f) = (k.recursiveFields fields).map f := by
  rw [Constructor.recursiveFields, Constructor.recursiveFields, zip_map_left, filter_map, map_map, map_map]
  rfl

/-- The type of a minor premise, at levels for the recursor, parameters and a motive. -/
def InductiveSpec.Accepted.minorAt {E : Env} {fuel next : Nat} {spec : InductiveSpec} (a : Accepted E fuel next spec)
    (ls : List Level) (as : List Term) (mot : Term) (i : Nat) (o : OpenedCtor) : Term :=
  (((a.motive.term.app (spec.ctorApp a.params i o)).pis (o.fields ++ a.hypotheses o)).mapLevels
    (a.levelsAt ls)).replace (.putAll .id (a.params ++ [a.motive]) (as ++ [mot]))

lemma InductiveSpec.Accepted.params_fields_nodup {E : Env} {fuel next : Nat} {spec : InductiveSpec}
    (a : Accepted E fuel next spec) {o : OpenedCtor} (ho : o ∈ a.opened) :
    ((a.params ++ o.fields).map Local.id).Nodup := by
  refine (a.minor_nodup ho).sublist (List.Sublist.map _ ?_)
  exact ((sublist_append_left _ _).append (.refl _)).trans (sublist_append_left _ _)

namespace FamilyInstance.Typed

variable {o : OpenedCtor}

open Env

variable {env : Env} {ps : List Name} {Γ : Context} {E : Env} {fuel next : Nat} {spec : InductiveSpec}
  {a : Accepted E fuel next spec} {T : FamilyInstance}

lemma levelAt_eq (hT : T.Typed env ps Γ a) : T.levelAt = (·.instantiateParams spec.levelParams T.levels) := by
  have hlevelParams : T.family.levelParams = spec.levelParams := by rw [hT.family]; rfl
  funext l
  rw [levelAt, hlevelParams]

lemma map_levelAt (hT : T.Typed env ps Γ a) (hnodup : spec.levelParams.Nodup) :
    spec.levels.map T.levelAt = T.levels := by
  rw [hT.levelAt_eq]
  exact map_instantiateParams_param hnodup hT.levels_length

lemma familyAt_eq (hT : T.Typed env ps Γ a) (hnodup : spec.levelParams.Nodup) :
    spec.familyAt T.levelAt T.params = (const T.family.name T.levels).apply T.params := by
  rw [familyAt, hT.map_levelAt hnodup, hT.family]
  rfl

lemma within (henv : env.Scoped) (hΓ : Γ.Scoped) {Γ' : Context} (hΓ' : Γ'.Scoped) (hT : T.Typed env ps Γ a)
    (hle : Γ.Within Γ') : T.Typed env ps Γ' a :=
  { hT with params := hT.params.within henv hΓ hΓ' hle }

/-- The type of a constructor is convertible to a product over the parameters, of one over the fields, that leads into
the type itself. -/
lemma product (henv : env.WellTyped) (h : env.FamilyTyped a) (hT : T.Typed env ps Γ a) (ho : o ∈ a.opened) :
    ∃ result : Term, result.In ((noFree.pushAll (a.params.map (·.mapLevels T.levelAt))).pushAll
        (o.fields.map (·.mapLevels T.levelAt))) 0 ∧
      env.IsType ps Γ [] (((result.pis (o.fields.map (·.mapLevels T.levelAt))).pis
        (a.params.map (·.mapLevels T.levelAt))).replace .id) ∧
      env.Conv (o.ctor.type.instantiateLevelParams T.family.levelParams T.levels)
        (((result.pis (o.fields.map (·.mapLevels T.levelAt))).pis (a.params.map (·.mapLevels T.levelAt))).replace .id) ∧
      env.Conv result ((spec.selfApp a.params).mapLevels T.levelAt) := by
  obtain ⟨result, hresult, htype, hconv, hself⟩ := h.product o ho
  have hconv := hconv.mapLevels henv.inScope spec.levelParams T.levels
  have hself := hself.mapLevels henv.inScope spec.levelParams T.levels
  have htype := htype.instantiateLevelParams henv.inScope hT.levels_length hT.levels_admitted Γ []
  rw [instantiateLevelParams_eq_mapLevels] at htype
  rw [← hT.levelAt_eq, pis_append, mapLevels_pis, mapLevels_pis] at htype hconv
  rw [← hT.levelAt_eq] at hself
  refine ⟨result.mapLevels T.levelAt, ?_, ?_, ?_, hself⟩
  · rw [← pushAll_append, ← map_append, pushAll_mapLevels]
    exact hresult.mapLevels_of_freeOnly (freeOnly_noFree.pushAll _) _
  · rwa [replace_id]
  · rwa [replace_id, instantiateLevelParams_eq_mapLevels]

lemma params_in (h : env.FamilyTyped a) (T : FamilyInstance) :
    Local.AllIn noFree (a.params.map (·.mapLevels T.levelAt)) :=
  (h.params.mono (levelScope_le_noFree _)).mapLevels freeOnly_noFree _

lemma fields_in (h : env.FamilyTyped a) (T : FamilyInstance) (ho : o ∈ a.opened) :
    Local.AllIn (noFree.pushAll (a.params.map (·.mapLevels T.levelAt))) (o.fields.map (·.mapLevels T.levelAt)) := by
  rw [pushAll_mapLevels]
  exact (h.fields_in ho).mapLevels (freeOnly_noFree.pushAll _) _

/-- The fields that are opened for a constructor on the parameters are a typed telescope, and an instance of the
fields declared. -/
lemma fields (henv : env.WellTyped) (hiota : env.IotaTyped) (hΓ : env.ContextTyped ps Γ) (h : env.FamilyTyped a)
    (hT : T.Typed env ps Γ a) (ho : o ∈ a.opened) {type rest : Term} {fields : List Local}
    (hspecial : env.Specializes T.params
      (o.ctor.type.instantiateLevelParams T.family.levelParams T.levels) type) (hopened : type.OpenedBy fields rest)
    (hlen : fields.length = o.ctor.numFields) (hnodup : (fields.map Local.id).Nodup)
    (hfresh : ∀ y ∈ fields, y.id ∉ Γ.ids) : env.TelescopeTyped ps Γ fields ∧
      env.TelescopeInstance (.putAll .id a.params T.params) (o.fields.map (·.mapLevels T.levelAt)) fields := by
  obtain ⟨result, hresult, -, hconv, -⟩ := hT.product henv h ho
  have hfieldsIn := fields_in h T ho
  have hctor : o.ctor ∈ a.info.ctors := mem_map_of_mem ho
  have htype := (henv.ctors _ _ h.family _ hctor).instantiateLevelParams henv.inScope hT.levels_length
    hT.levels_admitted Γ []
  have hlevelParams : a.info.levelParams = T.family.levelParams := by rw [hT.family]
  obtain ⟨hisType, hfieldsConv⟩ := hspecial.typed henv hiota hΓ (params_in h T) (Term.In.pis hfieldsIn hresult)
    hT.params (hlevelParams ▸ htype) hconv
  rw [putAll_mapLevels] at hfieldsConv
  refine ⟨hopened.typed henv hiota hΓ hisType hnodup hfresh,
    hopened.telescopeInstance henv ?_ hfieldsIn hresult hfieldsConv⟩
  rw [length_map, hlen, a.fields_length_eq ho]

section Levels

variable {l : Level} {ls : List Level} (hls : T.recursorLevels? l = some ls)
include hls

section

variable (hT : T.Typed env ps Γ a)
include hT

/-- The levels of the recursor: one for the motive, unless the type is a proposition, and those of the type. -/
lemma recursorLevels_cases : (spec.elimLevel a.sort = none ∧ l.isZero ∧ ls = T.levels) ∨
      ∃ u, spec.elimLevel a.sort = some u ∧ u ∉ spec.levelParams ∧ ls = l :: T.levels := by
  have helim : T.family.elimLevel = spec.elimLevel a.sort := by rw [hT.family]; rfl
  rw [recursorLevels?, helim] at hls
  cases hu : spec.elimLevel a.sort with
  | none =>
    rw [hu] at hls
    dsimp only at hls
    split at hls
    · rename_i hzero
      exact .inl ⟨rfl, hzero, (Option.some.inj hls).symm⟩
    · exact nomatch hls
  | some u =>
    rw [hu] at hls
    refine .inr ⟨u, rfl, ?_, (Option.some.inj hls).symm⟩
    unfold elimLevel at hu
    split at hu
    · exact nomatch hu
    · exact Option.some.inj hu ▸ freshElimLevel_notMem spec.levelParams

lemma recursorLevels_length : a.recursorDecl.levelParams.length = ls.length := by
  rcases hT.recursorLevels_cases hls with ⟨hu, -, rfl⟩ | ⟨u, hu, -, rfl⟩
  · simp [Accepted.recursorDecl, hu, hT.levels_length]
  · simp [Accepted.recursorDecl, hu, hT.levels_length]

lemma recursorLevels_admitted (hl : l.Admitted ps) : ∀ l' ∈ ls, l'.Admitted ps := by
  rcases hT.recursorLevels_cases hls with ⟨-, -, rfl⟩ | ⟨u, -, -, rfl⟩
  · exact hT.levels_admitted
  · exact forall_mem_cons.mpr ⟨hl, hT.levels_admitted⟩

/-- The levels of the recursor mean the same for the levels of the declaration as those of the type. -/
lemma levelsAt_eq {l' : Level} (hl' : l'.Admitted spec.levelParams) :
    a.levelsAt ls l' = T.levelAt l' := by
  rw [hT.levelAt_eq, Accepted.levelsAt]
  rcases hT.recursorLevels_cases hls with ⟨hu, -, rfl⟩ | ⟨u, hu, hfresh, rfl⟩
  · simp [Accepted.recursorDecl, hu]
  · simpa [Accepted.recursorDecl, hu] using hl'.instantiateParams_cons hfresh l T.levels

lemma levelsAt_motive :
    (a.levelsAt ls (((spec.elimLevel a.sort).map param).getD .zero)).Same l := by
  intro v
  rcases hT.recursorLevels_cases hls with ⟨hu, hzero, rfl⟩ | ⟨u, hu, -, rfl⟩
  · rw [value_eq_zero_of_isZero hzero, hu]
    rfl
  · simp [Accepted.levelsAt, Accepted.recursorDecl, hu, Level.instantiateParams, Level.subst, Level.lookupParam]

lemma levelsAt_motive_admitted (hl : l.Admitted ps) :
    (a.levelsAt ls (((spec.elimLevel a.sort).map param).getD .zero)).Admitted ps := by
  refine Level.Admitted.instantiateParams ?_ (hT.recursorLevels_length hls) (hT.recursorLevels_admitted hls hl)
  cases hu : spec.elimLevel a.sort with
  | none => exact admitted_zero
  | some u => exact admitted_param.mpr (by simp [Accepted.recursorDecl, hu])

lemma map_levelsAt_eq : spec.levels.map (a.levelsAt ls) = spec.levels.map T.levelAt := by
  refine map_congr_left fun l' hl' => ?_
  obtain ⟨p, hp, rfl⟩ := mem_map.mp hl'
  exact hT.levelsAt_eq hls (admitted_param.mpr hp)

lemma familyAt_levelsAt (as : List Term) :
    spec.familyAt (a.levelsAt ls) as = spec.familyAt T.levelAt as := by
  rw [familyAt, familyAt, hT.map_levelsAt_eq hls]

/-- Where no parameter is declared twice, the levels of the type are those that the recursor is about. -/
lemma map_levelsAt (hnodup : spec.levelParams.Nodup) :
    spec.levels.map (a.levelsAt ls) = T.levels :=
  (hT.map_levelsAt_eq hls).trans (hT.map_levelAt hnodup)

lemma mapLevels_levelsAt
    (hxs : Local.AllIn { levelScope spec.levelParams with free := fun _ => True } xs) :
    xs.map (·.mapLevels (a.levelsAt ls)) = xs.map (·.mapLevels T.levelAt) := by
  refine map_congr_left fun x hx => ?_
  have htype : x.type.mapLevels (a.levelsAt ls) = x.type.mapLevels T.levelAt :=
    mapLevels_congr (hxs.type_in hx) (fun l hl => hT.levelsAt_eq hls hl)
      (fun _ _ hls' l hl => hT.levelsAt_eq hls (hls' l hl)) fun _ _ _ hls' l hl => hT.levelsAt_eq hls (hls' l hl)
  rw [Local.mapLevels, Local.mapLevels, htype]

end

end Levels

section Instance

variable {fields : List Local}
variable {o : OpenedCtor}

/-- A constructor on hypotheses for its fields is of the type. -/
lemma construct (henv : env.WellTyped) (hiota : env.IotaTyped) (hΓ : env.ContextTyped ps Γ) (h : env.FamilyTyped a)
    (hT : T.Typed env ps Γ a) {i : Nat} (ho : a.opened[i]? = some o) (hfields : env.TelescopeTyped ps Γ fields)
    (hinst : env.TelescopeInstance (.putAll .id a.params T.params) (o.fields.map (·.mapLevels T.levelAt)) fields)
    {A : Term} (hA : env.IsType ps Γ [] A) (hconv : env.Conv (spec.familyAt T.levelAt T.params) A) :
    env.HasType True ps ⟨Γ.locals ++ fields⟩ [] (T.construct i o.ctor (fields.map Local.term)) A := by
  have hmem := mem_of_getElem? ho
  obtain ⟨result, hresult, htype, hctorConv, hself⟩ := hT.product henv h hmem
  have hparamsIn := params_in h T
  have hfieldsIn := fields_in h T hmem
  have hcontext := hfields.context henv.inScope hΓ
  have hwithin := Context.within_append fun y hy => hfields.fresh hy
  have hrest := hT.params.isType henv.inScope hΓ.inScope hparamsIn (Term.In.pis hfieldsIn hresult) htype
  rw [putAll_mapLevels] at hrest
  have hargs := hinst.args henv hiota hΓ hfieldsIn hresult hfields hrest
  have hparams := hT.params.within henv.inScope hΓ.inScope hcontext.inScope hwithin
  have hfamily : env.inductive? T.family.name = some T.family := by
    rw [hT.family]
    exact h.family
  have hk : T.family.ctors[i]? = some o.ctor := by
    rw [hT.family]
    simp [Accepted.info, ho]
  have hlen : T.family.levelParams.length = T.levels.length := by
    rw [hT.family]
    exact hT.levels_length
  have hctor : env.HasType True ps ⟨Γ.locals ++ fields⟩ [] (.ctor T.family.name i o.ctor.name T.levels) _ :=
    .ctor hfamily hk hlen hT.levels_admitted
  have hctor := hctor.conv_type hctorConv (htype.within henv.inScope hΓ.inScope hcontext.inScope hwithin)
  have happ := (hctor.apply_pis hparamsIn (Term.In.pis hfieldsIn hresult) hparams).apply_pis hfieldsIn hresult
    (by rwa [putAll_mapLevels])
  rw [putAll_mapLevels, putAll_mapLevels,
    ← putAll_append _ hT.params_length, ← apply_append] at happ
  -- the parameters are put for those of the type itself
  have hself := hself.replace henv.admits_noFree
    (Replacement.id.putAll (a.params ++ o.fields) (T.params ++ fields.map Local.term))
  rw [replace_selfApp (putAll_terms_left _ _ hT.params_length (a.params_fields_nodup hmem))] at hself
  exact happ.conv_type (hself.trans hconv) (hA.within henv.inScope hΓ.inScope hcontext.inScope hwithin)

lemma recursive (henv : env.WellTyped) (hT : T.Typed env ps Γ a) (ho : o ∈ a.opened)
    (hinst : env.TelescopeInstance (.putAll .id a.params T.params) (o.fields.map (·.mapLevels T.levelAt)) fields)
    {y : Local} (hy : y ∈ o.ctor.recursiveFields fields) : env.Conv y.type (spec.familyAt T.levelAt T.params) := by
  obtain ⟨j, hj, hrec⟩ := mem_recursiveFields.mp hy
  have hlen := hinst.length_eq
  rw [length_map] at hlen
  obtain ⟨x, hx⟩ : ∃ x, o.fields[j]? = some x := by
    have hlt := (List.getElem?_eq_some_iff.mp hj).1
    exact ⟨_, getElem?_eq_getElem (hlen ▸ hlt)⟩
  have hxrec : x ∈ o.recursiveFields := mem_recursiveFields.mpr ⟨j, hx, hrec⟩
  have halpha : env.Conv x.type (spec.selfApp a.params) := .of_alphaEq (a.recursive_alphaEq ho hxrec)
  have hconv := (halpha.mapLevels henv.inScope spec.levelParams T.levels).replace henv.admits_noFree
    (Replacement.id.putAll (a.params ++ o.fields.take j) (T.params ++ (fields.take j).map Local.term))
  have hnodup : ((a.params ++ o.fields.take j).map Local.id).Nodup :=
    (a.params_fields_nodup ho).sublist ((List.Sublist.append (.refl _) (take_sublist _ _)).map _)
  rw [replace_selfApp (putAll_terms_left _ _ hT.params_length hnodup), ← hT.levelAt_eq] at hconv
  have hget := hinst.get (x := x.mapLevels T.levelAt) (by simp [hx]) hj
  rw [← map_take, putAll_mapLevels, ← putAll_append _ hT.params_length] at hget
  exact hget.trans hconv

/-- What is opened for a minor premise: the fields, and hypotheses for the recursive ones among them. -/
lemma minor (hT : T.Typed env ps Γ a) (h : env.FamilyTyped a) {l : Level} {ls : List Level}
    (hls : T.recursorLevels? l = some ls) (ho : o ∈ a.opened)
    (hinst : env.TelescopeInstance (.putAll .id a.params T.params) (o.fields.map (·.mapLevels T.levelAt)) fields)
    {mot : Term} {ihs : List Local}
    (hihs : List.Forall₂ (fun ih y => env.Conv ih.type (mot.app y.term)) ihs (o.ctor.recursiveFields fields)) :
    env.TelescopeInstance (.putAll .id (a.params ++ [a.motive]) (T.params ++ [mot]))
      ((o.fields ++ a.hypotheses o).map (·.mapLevels (a.levelsAt ls))) (fields ++ ihs) := by
  have hprefix : (a.params ++ [a.motive]).length = (T.params ++ [mot]).length := by simp [hT.params_length]
  have hlen : o.fields.length = (fields.map Local.term).length := by simpa using hinst.length_eq
  have hnodup := a.minor_nodup ho
  rw [map_append, nodup_append] at hnodup
  have hnodup := hnodup.1
  rw [map_append]
  refine TelescopeInstance.append ?fields ?ihs
  case fields =>
    have hlevels : Local.AllIn { levelScope spec.levelParams with free := fun _ => True } o.fields := by
      refine (h.fields o ho).mono ?_
      rw [pushAll_eq]
      exact { free := fun _ _ => trivial }
    rw [hT.mapLevels_levelsAt hls hlevels]
    refine hinst.congr ((h.fields_in ho).mapLevels (freeOnly_noFree.pushAll _) _) fun z hz => ?_
    -- the fields do not mention the motive
    have hzm : z ≠ a.motive.id := by
      have hz := ((pushAll_free _ _ _).mp hz).resolve_left fun h => h
      have hmotive := a.params_motive_nodup
      rw [map_append, nodup_append] at hmotive
      exact fun heq => hmotive.2.2 z hz a.motive.id (by simp) heq
    rw [putAll_append _ hT.params_length]
    exact if_neg hzm
  case ihs =>
    rw [putAll_mapLevels, ← putAll_append _ hprefix]
    generalize hs : putAll .id (a.params ++ [a.motive] ++ o.fields)
      (T.params ++ [mot] ++ fields.map Local.term) = s
    have hterms : (o.fields.map Local.term).map (·.replace s) = fields.map Local.term := by
      rw [← hs, putAll_append _ hprefix]
      exact putAll_terms _ hlen (map_append ▸ hnodup).of_append_right
    have hmotive : a.motive.term.replace s = mot := by
      have hleft := putAll_terms_left .id (fields.map Local.term) hprefix hnodup
      rw [hs, map_append, map_append] at hleft
      exact head_eq_of_cons_eq (append_inj' hleft rfl).2
    refine TelescopeInstance.of_forall₂ (S := noFree.pushAll (a.params ++ [a.motive] ++ o.fields)) ?_ ?_ ?_
    · intro x hx
      obtain ⟨y, hy, rfl⟩ := mem_map.mp hx
      exact (a.hypotheses_in hy).mapLevels_of_freeOnly (freeOnly_noFree.pushAll _) _
    · intro x hx
      obtain ⟨y, hy, rfl⟩ := mem_map.mp hx
      rw [Local.id_mapLevels]
      exact a.hypotheses_fresh ho hy
    · have hrecursive : (o.ctor.recursiveFields fields).map Local.term =
          o.recursiveFields.map fun x => x.term.replace s := by
        rw [← recursiveFields_map, ← hterms, map_map, recursiveFields_map]
        rfl
      have hihs : List.Forall₂ (fun ih m => env.Conv ih.type (mot.app m)) ihs
          ((o.ctor.recursiveFields fields).map Local.term) := forall₂_map_right_iff.mpr hihs
      rw [hrecursive, forall₂_map_right_iff, ← zipIdx_map_fst 0 o.recursiveFields, forall₂_map_right_iff] at hihs
      rw [forall₂_map_right_iff, Accepted.hypotheses, InductiveSpec.hypotheses, forall₂_map_right_iff]
      refine hihs.imp fun ih p hconv => ?_
      show env.Conv ih.type ((a.motive.term.app p.1.term).replace s)
      rwa [Term.replace, hmotive]

end Instance

end FamilyInstance.Typed

end ProofAssistant
