import ProofAssistant.Proofs.TypedTelescope

/-!
# Recursors keep types

`Env.FamilyTyped` collects what the checks of an inductive declaration have found about its types. From it,
`Env.FamilyTyped.iota` shows that a recursor on a constructor contracts to a term of its type. The constructor carries
levels of its own; where no parameter is declared twice, its type tells them.
-/

namespace ProofAssistant

open List Scope

variable {i : Nat} {v : Term}

open Fueled

/-! ## Numbers of hypotheses -/

namespace InductiveSpec

variable {env : Env} {spec : InductiveSpec} {fuel next : Nat}
variable {rest : Term}

lemma openParams_numbers {count : Nat} {target : Term} {params : List Local}
    (h : (spec.openParams env fuel count next target).Yields (params, rest)) :
    params.map (·.id.number) = List.range' next count := by
  induction count generalizing next target params with
  | zero =>
    obtain ⟨rfl, _⟩ := h
    rfl
  | succ count ih =>
    obtain ⟨x, i, t, b, params', _, hrec, rfl⟩ := openParams_succ h
    rw [map_cons, ih hrec]
    rfl

lemma openFields_numbers {sort : Level} {selfApp : Term} {c : Name} {Γ Γ' : Context} {type : Term}
    {fields : List (Local × Bool)}
    (h : (openFields env spec sort selfApp c fuel next Γ type).Yields (fields, Γ', rest)) :
    (fields.map Prod.fst).map (·.id.number) = List.range' next fields.length := by
  induction fuel generalizing next Γ type fields with
  | zero => simp [openFields] at h
  | succ fuel ih =>
    rcases openFields_cases h with ⟨x, i, t, b, rfl⟩ | ⟨rfl, _⟩
    · obtain ⟨recursive, fields', _, _, hrec, rfl⟩ := openFields_pi h
      rw [map_cons, map_cons, ih hrec]
      rfl
    · rfl

/-- A recursive field is of the type itself. -/
lemma openFields_recursive {sort : Level} {selfApp : Term} {c : Name} {Γ Γ' : Context} {type : Term}
    {fields : List (Local × Bool)}
    (h : (openFields env spec sort selfApp c fuel next Γ type).Yields (fields, Γ', rest)) {x : Local}
    (hx : (x, true) ∈ fields) : x.type.alphaEq selfApp := by
  induction fuel generalizing next Γ type fields with
  | zero => simp [openFields] at h
  | succ fuel ih =>
    rcases openFields_cases h with ⟨y, i, t, b, rfl⟩ | ⟨rfl, _⟩
    · obtain ⟨recursive, fields', hrecursive, _, hrec, rfl⟩ := openFields_pi h
      rcases mem_cons.mp hx with heq | hx
      · obtain ⟨rfl, rfl⟩ := Prod.mk.inj heq
        unfold fieldIsRecursive at hrecursive
        split at hrecursive
        · simp at hrecursive
        · split at hrecursive
          · split at hrecursive
            · rename_i hcond
              exact hcond.2
            · simp at hrecursive
          · simp at hrecursive
      · exact ih hrec hx
    · simp at hx

/-- The type at other levels, on arguments for its parameters. -/
def familyAt (spec : InductiveSpec) (f : Level → Level) (as : List Term) : Term :=
  (Term.const spec.name (spec.levels.map f)).apply as

lemma replace_selfApp {spec : InductiveSpec} {params : List Local} {s : Replacement} {as : List Term}
    (h : (params.map Local.term).map (·.replace s) = as) (f : Level → Level) :
    ((spec.selfApp params).mapLevels f).replace s = spec.familyAt f as := by
  have hterms : (params.map Local.term).map (·.mapLevels f) = params.map Local.term := by
    rw [map_map]
    rfl
  rw [selfApp, Term.mapLevels_apply, Term.replace_apply, hterms, h]
  rfl

namespace Accepted

variable (a : Accepted env fuel next spec)
variable {o : OpenedCtor} {x : Local}

lemma params_numbers : a.params.map (·.id.number) = List.range' next spec.numParams :=
  openParams_numbers a.paramsOpened

lemma params_length : a.params.length = spec.numParams := by
  simpa using congrArg List.length a.params_numbers

lemma fields_numbers (ho : o ∈ a.opened) :
    o.fields.map (·.id.number) = List.range' (next + spec.numParams) o.fields.length := by
  obtain ⟨c, _, hacc⟩ := a.exists_ctor ho
  obtain ⟨_, _, _, _, _, hopen, _, rfl⟩ := hacc.opened
  simpa using openFields_numbers hopen

lemma fields_length_eq (ho : o ∈ a.opened) : o.fields.length = o.ctor.numFields := by
  obtain ⟨c, _, hacc⟩ := a.exists_ctor ho
  obtain ⟨_, _, _, _, _, _, _, rfl⟩ := hacc.opened
  simp

lemma le_nextFree (ho : o ∈ a.opened) : next + spec.numParams + o.fields.length ≤ a.nextFree := by
  obtain ⟨before, after, hopened⟩ := append_of_mem ho
  have hlen : (a.opened.flatMap (·.fields)).length =
      (before.flatMap (·.fields)).length + (o.fields.length + (after.flatMap (·.fields)).length) := by
    rw [hopened, flatMap_append, length_append, flatMap_cons, length_append]
  rw [nextFree]
  omega

lemma recursive_alphaEq (ho : o ∈ a.opened) (hx : x ∈ o.recursiveFields) :
    x.type.alphaEq (spec.selfApp a.params) := by
  obtain ⟨c, _, hacc⟩ := a.exists_ctor ho
  obtain ⟨_, fields, _, _, _, hopen, _, rfl⟩ := hacc.opened
  obtain ⟨⟨y, r⟩, hy, rfl⟩ := mem_map.mp hx
  obtain ⟨hmem, hr⟩ := mem_filter.mp hy
  obtain rfl : r = true := hr
  rw [← zip_of_prod rfl rfl] at hmem
  exact openFields_recursive hopen hmem

/-! ## The parts of a recursor -/

/-- The motive. -/
def motive : Local :=
  spec.motive a.nextFree a.params (spec.elimLevel a.sort)

/-- The minor premises. -/
def minors : List Local :=
  spec.minors a.nextFree a.params a.motive a.opened

/-- The scrutinee. -/
def major : Local :=
  spec.major a.nextFree a.params

/-- The induction hypotheses of the minor premise for a constructor. -/
def hypotheses (o : OpenedCtor) : List Local :=
  InductiveSpec.hypotheses (a.nextFree + 2 + a.opened.length) a.motive o

lemma recursorDecl_type : a.recursorDecl.type =
    (a.motive.term.app a.major.term).pis (a.params ++ [a.motive] ++ a.minors ++ [a.major]) := rfl

lemma minors_getElem? (ho : a.opened[i]? = some o) : ∃ x, a.minors[i]? = some x ∧ x.type =
      (a.motive.term.app (spec.ctorApp a.params i o)).pis (o.fields ++ a.hypotheses o) := by
  simp only [minors, InductiveSpec.minors, getElem?_map, getElem?_zipIdx, ho, Nat.zero_add]
  exact ⟨_, rfl, minorType_eq _ _ _ _⟩

lemma minors_length : a.minors.length = a.opened.length := by
  simp [minors, InductiveSpec.minors]

private lemma numbers_zipIdx {α : Type} (xs : List α) (n : Nat) {f : α × Nat → Local}
    (hf : ∀ p, (f p).id.number = n + p.2) : (xs.zipIdx.map f).map (·.id.number) = List.range' n xs.length := by
  rw [map_map]
  calc xs.zipIdx.map (fun p => (f p).id.number) = (xs.zipIdx.map Prod.snd).map (n + ·) := by
        rw [map_map]
        exact map_congr_left fun p _ => hf p
    _ = List.range' n xs.length := by
        rw [zipIdx_map_snd, map_add_range', Nat.add_zero]

lemma minors_numbers : a.minors.map (·.id.number) = List.range' (a.nextFree + 2) a.opened.length :=
  numbers_zipIdx _ _ fun _ => rfl

lemma hypotheses_numbers (o : OpenedCtor) : (a.hypotheses o).map (·.id.number) =
    List.range' (a.nextFree + 2 + a.opened.length) o.recursiveFields.length :=
  numbers_zipIdx _ _ fun _ => rfl

private lemma nodup_ids_of_numbers {xs : List Local} (h : (xs.map (·.id.number)).Nodup) : (xs.map Local.id).Nodup :=
  .of_map Id.number (by rwa [map_map])

lemma le_nextFree_params : next + spec.numParams ≤ a.nextFree :=
  Nat.le_add_right _ _

lemma recursor_nodup : ((a.params ++ [a.motive] ++ a.minors ++ [a.major]).map Local.id).Nodup := by
  refine nodup_ids_of_numbers ?_
  have hle := a.le_nextFree_params
  have hrange (s n : Nat) : (List.range' s n).Nodup := nodup_range'
  have hmotive : a.motive.id.number = a.nextFree := rfl
  have hmajor : a.major.id.number = a.nextFree + 1 := rfl
  simp only [map_append, a.params_numbers, a.minors_numbers, map_cons, map_nil, hmotive, hmajor,
    nodup_append, hrange, nodup_singleton, mem_append, mem_range'_1, mem_singleton]
  grind

lemma params_motive_nodup : ((a.params ++ [a.motive]).map Local.id).Nodup :=
  a.recursor_nodup.sublist (.map _ ((sublist_append_left _ _).trans (sublist_append_left _ _)))

/-- The hypotheses of a minor premise are pairwise distinct, and none is a parameter or the motive. -/
lemma minor_nodup (ho : o ∈ a.opened) :
    ((a.params ++ [a.motive] ++ o.fields ++ a.hypotheses o).map Local.id).Nodup := by
  refine nodup_ids_of_numbers ?_
  have hle := a.le_nextFree ho
  have hrange (s n : Nat) : (List.range' s n).Nodup := nodup_range'
  have hmotive : a.motive.id.number = a.nextFree := rfl
  simp only [map_append, a.params_numbers, a.fields_numbers ho, a.hypotheses_numbers, map_cons,
    map_nil, hmotive, nodup_append, hrange, nodup_singleton, mem_append, mem_range'_1, mem_singleton]
  grind

lemma minors_fresh : ∀ y ∈ a.minors, ¬ (noFree.pushAll (a.params ++ [a.motive])).free y.id := by
  intro y hy hfree
  have hnodup := (nodup_append.mp (map_append ▸ a.recursor_nodup)).1
  rw [map_append, nodup_append] at hnodup
  have hmem := ((pushAll_free _ _ _).mp hfree).resolve_left fun h => h
  exact hnodup.2.2 _ hmem _ (mem_map_of_mem hy) rfl

/-- The induction hypotheses are about the motive and the fields, and different from them. -/
lemma hypotheses_in (hx : x ∈ a.hypotheses o) :
    x.type.In (noFree.pushAll (a.params ++ [a.motive] ++ o.fields)) 0 := by
  obtain ⟨⟨field, j⟩, hfield, rfl⟩ := mem_map.mp hx
  have hmem := OpenedCtor.mem_fields_of_recursive (fst_mem_of_mem_zipIdx hfield)
  exact ⟨Term.in_pushAll_term (by simp), Term.in_pushAll_term (by simp [hmem])⟩

lemma hypotheses_fresh (ho : o ∈ a.opened) (hx : x ∈ a.hypotheses o) :
    ¬ (noFree.pushAll (a.params ++ [a.motive] ++ o.fields)).free x.id := by
  intro hfree
  have hnodup := a.minor_nodup ho
  rw [map_append, nodup_append] at hnodup
  have hmem := ((pushAll_free _ _ _).mp hfree).resolve_left fun h => h
  exact hnodup.2.2 _ hmem _ (mem_map_of_mem hx) rfl

/-- The levels in the type of the recursor, at arguments for its universe parameters. -/
def levelsAt (ls : List Level) (l : Level) : Level :=
  l.instantiateParams a.recursorDecl.levelParams ls

variable {as mins : List Term} {mot : Term}

lemma replace_major_type (has : a.params.length = as.length) (f : Level → Level) : (a.major.type.mapLevels f).replace
      (Replacement.id.putAll (a.params ++ [a.motive] ++ a.minors) (as ++ [mot] ++ mins)) = spec.familyAt f as := by
  refine replace_selfApp ?_ f
  have hnodup := a.recursor_nodup
  simp only [append_assoc] at hnodup ⊢
  refine Replacement.putAll_terms_left _ _ has ?_
  exact hnodup.sublist (.map _ (.append_left (.append_left (sublist_append_left _ _) _) _))

lemma replace_conclusion (has : a.params.length = as.length) (hmins : a.minors.length = mins.length) :
    (a.motive.term.app a.major.term).replace (Replacement.id.putAll
      (a.params ++ [a.motive] ++ a.minors ++ [a.major]) (as ++ [mot] ++ mins ++ [v])) = mot.app v := by
  have hnodup := a.recursor_nodup
  simp only [append_assoc] at hnodup ⊢
  have hright := (map_append ▸ hnodup).of_append_right
  have hmot := Replacement.putAll_terms_left (Replacement.id.putAll a.params as) (mins ++ [v])
    (show [a.motive].length = [mot].length from rfl) hright
  have hmajor := Replacement.putAll_terms (((Replacement.id.putAll a.params as).putAll [a.motive] [mot]).putAll
    a.minors mins) (show [a.major].length = [v].length from rfl) (nodup_singleton _)
  rw [Replacement.putAll_append _ has]
  rw [Term.replace]
  congr 1
  · exact head_eq_of_cons_eq hmot
  · rw [Replacement.putAll_append _ (by rfl), Replacement.putAll_append _ hmins]
    exact head_eq_of_cons_eq hmajor

lemma replace_minor_body (ho : o ∈ a.opened) {fields calls : List Term} (has : a.params.length = as.length)
    (hfields : o.fields.length = fields.length) (hcalls : (a.hypotheses o).length = calls.length) (f : Level → Level) :
    ((a.motive.term.app (spec.ctorApp a.params i o)).mapLevels f).replace (Replacement.id.putAll
      (a.params ++ [a.motive] ++ o.fields ++ a.hypotheses o) (as ++ [mot] ++ fields ++ calls)) =
    mot.app ((Term.ctor spec.name i o.ctor.name (spec.levels.map f)).apply (as ++ fields)) := by
  have hlen : (a.params ++ [a.motive] ++ o.fields ++ a.hypotheses o).length =
      (as ++ [mot] ++ fields ++ calls).length := by simp [has, hfields, hcalls]
  have hterms := Replacement.putAll_terms .id hlen (a.minor_nodup ho)
  generalize Replacement.id.putAll (a.params ++ [a.motive] ++ o.fields ++ a.hypotheses o)
    (as ++ [mot] ++ fields ++ calls) = s at hterms ⊢
  simp only [map_append] at hterms
  obtain ⟨hterms, _⟩ := append_inj' hterms (by simp [hcalls])
  obtain ⟨hterms, hfieldTerms⟩ := append_inj' hterms (by simp [hfields])
  obtain ⟨hparamTerms, hmotive⟩ := append_inj' hterms rfl
  have hlevels : ((a.params ++ o.fields).map Local.term).map (·.mapLevels f) =
      (a.params ++ o.fields).map Local.term := by
    rw [map_map]
    rfl
  rw [Term.mapLevels, Term.replace, ctorApp, Term.mapLevels_apply, hlevels, Term.replace_apply, map_append,
    map_append, hparamTerms, hfieldTerms]
  exact congrArg (Term.app · _) (head_eq_of_cons_eq hmotive)

end Accepted

end InductiveSpec

/-- Replacements of the parameters by levels of the same value lead to levels of the same value. -/
lemma Level.Admitted.same_subst {ps : List Name} {l : Level} (hl : l.Admitted ps) {f g : Name → Level}
    {f' g' : Id → Level} (h : ∀ p ∈ ps, (f p).Same (g p)) : (l.subst f f').Same (l.subst g g') := by
  intro v
  induction l with
  | zero => rfl
  | succ l ih => exact congrArg (· + 1) (ih hl)
  | max b c ihb ihc =>
    obtain ⟨hb, hc⟩ := admitted_max.mp hl
    simp only [Level.subst, value, ihb hb, ihc hc]
  | imax b c ihb ihc =>
    obtain ⟨hb, hc⟩ := admitted_imax.mp hl
    simp only [Level.subst, value, ihb hb, ihc hc]
  | param p => exact h p (admitted_param.mp hl) v
  | mvar id => exact absurd hl not_admitted_mvar

namespace Env

variable {o : OpenedCtor} {ls : List Level}

open InductiveSpec

/-! ## Families -/

/-- The scope of closed terms whose levels are admitted. -/
def levelScope (ps : List Name) : Scope where
  free _ := False
  level := Level.Admitted ps
  const _ ls := ∀ l ∈ ls, l.Admitted ps
  ctor _ _ ls := ∀ l ∈ ls, l.Admitted ps

lemma levelScope_le_noFree (ps : List Name) : (levelScope ps).Le noFree :=
  le_of_free fun _ h => h

/-- What is known of an accepted inductive declaration in an environment that contains it. -/
structure FamilyTyped (env : Env) {E : Env} {fuel next : Nat} {spec : InductiveSpec}
    (a : Accepted E fuel next spec) : Prop where
  recursor : env.get? spec.recursor = some a.recursorDecl
  family : env.inductive? spec.name = some a.info
  name : ∃ d, env.get? spec.name = some d ∧ (∀ v n, d.kind ≠ .definition v n) ∧ ∀ t, d.kind ≠ .recursor t
  params : Local.AllIn (levelScope spec.levelParams) a.params
  fields : ∀ o ∈ a.opened, Local.AllIn ((levelScope spec.levelParams).pushAll a.params) o.fields
  product : ∀ o ∈ a.opened, ∃ result, result.In (noFree.pushAll (a.params ++ o.fields)) 0 ∧
    env.IsType spec.levelParams {} [] (result.pis (a.params ++ o.fields)) ∧
    env.Conv o.ctor.type (result.pis (a.params ++ o.fields)) ∧ env.Conv result (spec.selfApp a.params)

variable {env E : Env} {fuel next : Nat} {spec : InductiveSpec} {a : Accepted E fuel next spec}
  {ps : List Name} {Γ : Context} {Δ : List Term}

namespace FamilyTyped

section

variable (h : env.FamilyTyped a)
include h

lemma telescope (ho : o ∈ a.opened) : Local.AllIn noFree (a.params ++ o.fields) :=
  (Local.allIn_append.mpr ⟨h.params, h.fields o ho⟩).mono (levelScope_le_noFree _)

lemma fields_in (ho : o ∈ a.opened) : Local.AllIn (noFree.pushAll a.params) o.fields :=
  (Local.allIn_append.mp (h.telescope ho)).2

lemma recursor_telescope :
    Local.AllIn noFree (a.params ++ [a.motive] ++ a.minors ++ [a.major]) :=
  recursor_telescope_in (h.params.mono (levelScope_le_noFree _)) fun _ ho => h.fields_in ho

lemma rigid (vs : List (Level.Valuation → Nat)) (n : Nat) :
    Skel.Rigid env (.const spec.name vs) n := by
  obtain ⟨d, hd, hdef, hrec⟩ := h.name
  exact Skel.rigid_const hd hdef hrec vs n

end

end FamilyTyped

/-! ## Applications of the recursor -/

/-- The recursor at levels `ls`, applied to all arguments before the scrutinee: parameters, a motive and minor
premises. -/
structure RecursorApplied (env : Env) (ps : List Name) (Γ : Context) (Δ : List Term) {E : Env} {fuel next : Nat}
    {spec : InductiveSpec} (a : Accepted E fuel next spec) (ls : List Level) (as : List Term) (mot : Term)
    (mins : List Term) : Prop where
  levels_length : a.recursorDecl.levelParams.length = ls.length
  levels_admitted : ∀ l ∈ ls, l.Admitted ps
  params_length : a.params.length = as.length
  minors_length : a.minors.length = mins.length
  args : env.ArgsTyped ps Γ Δ .id ((a.params ++ [a.motive] ++ a.minors).map (·.mapLevels (a.levelsAt ls)))
    (as ++ [mot] ++ mins)

lemma FamilyTyped.recursor_typed (h : env.FamilyTyped a) (hlen : a.recursorDecl.levelParams.length = ls.length)
    (hls : ∀ l ∈ ls, l.Admitted ps) :
    env.HasType True ps Γ Δ (.const spec.recursor ls) (((a.motive.term.app a.major.term).pis
      ((a.params ++ [a.motive] ++ a.minors ++ [a.major]).map (·.mapLevels (a.levelsAt ls)))).replace .id) := by
  have hconst : env.HasType True ps Γ Δ (.const spec.recursor ls) _ :=
    .const (mem_of_find?_eq_some h.recursor) rfl (by simp [Accepted.recursorDecl]) hlen hls
  rw [Term.instantiateLevelParams_eq_mapLevels, a.recursorDecl_type, Term.mapLevels_pis] at hconst
  rwa [Term.replace_id]

namespace RecursorApplied

variable {ls : List Level} {as mins : List Term} {mot : Term}

lemma app (h : env.FamilyTyped a) (hr : env.RecursorApplied ps Γ Δ a ls as mot mins)
    (hv : env.HasType True ps Γ Δ v (spec.familyAt (a.levelsAt ls) as)) :
    env.HasType True ps Γ Δ (((Term.const spec.recursor ls).apply (as ++ [mot] ++ mins)).app v) (mot.app v) := by
  have hargs : env.ArgsTyped ps Γ Δ .id
      ((a.params ++ [a.motive] ++ a.minors ++ [a.major]).map (·.mapLevels (a.levelsAt ls)))
      (as ++ [mot] ++ mins ++ [v]) := by
    rw [map_append]
    refine hr.args.append (.cons ?_ (.nil _))
    rw [Replacement.putAll_mapLevels]
    exact a.replace_major_type hr.params_length _ ▸ hv
  have happ := (h.recursor_typed hr.levels_length hr.levels_admitted).apply_pis
    (h.recursor_telescope.mapLevels freeOnly_noFree _) (by rw [pushAll_mapLevels]; exact recursor_body_in) hargs
  rw [Replacement.putAll_mapLevels, a.replace_conclusion hr.params_length hr.minors_length, Term.apply_append] at happ
  exact happ

lemma minor (h : env.FamilyTyped a) (hr : env.RecursorApplied ps Γ Δ a ls as mot mins) {i : Nat}
    {o : OpenedCtor} (ho : a.opened[i]? = some o) {m : Term} (hm : mins[i]? = some m) :
    env.HasType True ps Γ Δ m (((a.motive.term.app (spec.ctorApp a.params i o)).pis
      (o.fields ++ a.hypotheses o)).mapLevels (a.levelsAt ls) |>.replace
        (.putAll .id (a.params ++ [a.motive]) (as ++ [mot]))) := by
  obtain ⟨x, hx, htype⟩ := a.minors_getElem? ho
  have hlen : ((a.params ++ [a.motive]).map (·.mapLevels (a.levelsAt ls))).length = (as ++ [mot]).length := by
    simp [hr.params_length]
  have hargs := hr.args
  rw [map_append] at hargs
  have hmins := (hargs.of_append hlen).2
  rw [Replacement.putAll_mapLevels] at hmins
  -- The minor premises mention the parameters and the motive, and not each other.
  have hin : x.type.In (noFree.pushAll (a.params ++ [a.motive])) 0 := by
    rw [htype]
    exact minorType_in (h.fields_in (mem_of_getElem? ho))
  have htyped := hmins.get_of_in (x := x.mapLevels (a.levelsAt ls)) (by simp [hx]) hm
    (hin.mapLevels_of_freeOnly (freeOnly_noFree.pushAll _) _) (by simpa using a.minors_fresh)
  exact htype ▸ htyped

end RecursorApplied

lemma FamilyTyped.recursor_inv (henv : env.WellTyped) (h : env.FamilyTyped a) (hΓ : env.ContextTyped ps Γ)
    (hΔ : env.BindersTyped ps Γ Δ) {args : List Term} {T : Term} (hlen : args.length = majorIndex a.info)
    (ht : env.HasType True ps Γ Δ (((Term.const spec.recursor ls).apply args).app v) T) :
    ∃ as mot mins, args = as ++ [mot] ++ mins ∧ env.RecursorApplied ps Γ Δ a ls as mot mins ∧
      env.HasType True ps Γ Δ v (spec.familyAt (a.levelsAt ls) as) ∧ env.Conv (mot.app v) T := by
  obtain ⟨as, mot, mins, rfl, has, hmins⟩ : ∃ as mot mins, args = as ++ [mot] ++ mins ∧
      a.params.length = as.length ∧ a.minors.length = mins.length := by
    have hlen : args.length = spec.numParams + 1 + a.opened.length := by
      simpa [majorIndex, Accepted.info] using hlen
    have hn : spec.numParams < args.length := by omega
    refine ⟨args.take spec.numParams, args[spec.numParams], args.drop (spec.numParams + 1), ?_, ?_, ?_⟩
    · rw [append_assoc, singleton_append, getElem_cons_drop, take_append_drop]
    · rw [a.params_length, length_take]
      omega
    · rw [a.minors_length, length_drop]
      omega
  refine ⟨as, mot, mins, rfl, ?_⟩
  have hspine : ((Term.const spec.recursor ls).apply (as ++ [mot] ++ mins)).app v =
      (Term.const spec.recursor ls).apply (as ++ [mot] ++ mins ++ [v]) := (Term.apply_append _ _ [v]).symm
  rw [hspine] at ht
  obtain ⟨F, hF⟩ := ht.head
  obtain ⟨d, hd, hname, hkind, hlevels, hls, _⟩ := hF.const_inv
  obtain rfl : a.recursorDecl = d := henv.unique _ (mem_of_find?_eq_some h.recursor) d hd
    (by simp [Accepted.recursorDecl]) hkind hname.symm
  obtain ⟨hargs, hT⟩ := HasType.apply_inv henv hΓ hΔ (h.recursor_telescope.mapLevels freeOnly_noFree _)
    (by rw [pushAll_mapLevels]; exact recursor_body_in) (by simp [has, hmins])
    (h.recursor_typed hlevels hls) ht
  rw [Replacement.putAll_mapLevels, a.replace_conclusion has hmins] at hT
  rw [map_append] at hargs
  obtain ⟨hargs, hmajor⟩ := hargs.of_append (by simp [has, hmins])
  cases hmajor with
  | cons hv _ =>
    rw [Replacement.putAll_mapLevels] at hv
    exact ⟨⟨hlevels, hls, has, hmins, hargs⟩, a.replace_major_type has _ ▸ hv, hT⟩

/-! ## Applications of a constructor -/

/-- The arguments of a constructor whose type at levels `f` and arguments `as` is known: its own levels and parameters
are those. -/
lemma FamilyTyped.ctor_inv (henv : env.WellTyped) (h : env.FamilyTyped a) (hΓ : env.ContextTyped ps Γ)
    (hΔ : env.BindersTyped ps Γ Δ) (ho : a.opened[i]? = some o) {n : Name} {params fields as : List Term}
    {f : Level → Level} (hparams : a.params.length = params.length) (hfields : o.fields.length = fields.length)
    (ht : env.HasType True ps Γ Δ ((Term.ctor spec.name i n ls).apply (params ++ fields)) (spec.familyAt f as)) :
    spec.levelParams.length = ls.length ∧
      List.Forall₂ Level.Same (spec.levels.map (·.instantiateParams spec.levelParams ls)) (spec.levels.map f) ∧
      List.Forall₂ env.Conv params as ∧ env.ArgsTyped ps Γ Δ (.putAll .id a.params params)
        (o.fields.map (·.mapLevels (·.instantiateParams spec.levelParams ls))) fields := by
  have hmem := mem_of_getElem? ho
  have hadmits := henv.admits_noFree
  obtain ⟨result, hresult, hproduct, hconv, hself⟩ := h.product o hmem
  obtain ⟨F, hF⟩ := ht.head
  obtain ⟨t, k, hfamily, hk, hlen, hls, _⟩ := hF.ctor_inv
  obtain rfl : a.info = t := Option.some.inj (h.family.symm.trans hfamily)
  obtain rfl : o.ctor = k := by simpa [Accepted.info, ho] using hk
  have hctor : env.HasType True ps Γ Δ (.ctor spec.name i n ls)
      (((result.pis (a.params ++ o.fields)).mapLevels (·.instantiateParams spec.levelParams ls)).replace .id) := by
    have hconv := hconv.mapLevels henv.inScope spec.levelParams ls
    rw [← Term.instantiateLevelParams_eq_mapLevels, ← Term.instantiateLevelParams_eq_mapLevels] at hconv
    rw [Term.replace_id, ← Term.instantiateLevelParams_eq_mapLevels]
    exact (HasType.ctor hfamily hk hlen hls).conv_type hconv
      (hproduct.instantiateLevelParams henv.inScope hlen hls Γ Δ)
  rw [Term.mapLevels_pis] at hctor
  obtain ⟨hargs, hT⟩ := HasType.apply_inv henv hΓ hΔ ((h.telescope hmem).mapLevels freeOnly_noFree _)
    (by rw [pushAll_mapLevels]; exact hresult.mapLevels_of_freeOnly (freeOnly_noFree.pushAll _) _)
    (by simp [hparams, hfields]) hctor ht
  have hnodup : ((a.params ++ o.fields).map Local.id).Nodup :=
    (a.minor_nodup hmem).sublist (.map _ ((List.Sublist.append (sublist_append_left _ _)
      (List.Sublist.refl _)).trans (sublist_append_left _ _)))
  have hterms := Replacement.putAll_terms_left .id fields hparams hnodup
  rw [Replacement.putAll_mapLevels] at hT
  -- Both applications of the type are convertible, and its name stays at their heads.
  have hresult' := (hself.mapLevels henv.inScope spec.levelParams ls).replace hadmits
    (.putAll .id (a.params ++ o.fields) (params ++ fields))
  rw [replace_selfApp hterms] at hresult'
  obtain ⟨hatom, hparams'⟩ := (hresult'.symm.trans hT).apply_inj hadmits rfl rfl (h.rigid _ _) (h.rigid _ _)
  rw [map_append] at hargs
  have hargs := (hargs.of_append (by simp [hparams])).2
  rw [Replacement.putAll_mapLevels] at hargs
  exact ⟨hlen, Level.map_meaning_eq_iff.mp (Atom.const.inj hatom).2, hparams', hargs⟩

/-! ## The contraction -/

private lemma forall₂_zipIdx {α : Type} {R : α → α × Nat → Prop} {xs : List α} (n : Nat)
    (h : ∀ x ∈ xs, ∀ j, R x (x, j)) : List.Forall₂ R xs (xs.zipIdx n) := by
  induction xs generalizing n with
  | nil => exact .nil
  | cons x xs ih =>
    rw [forall_mem_cons] at h
    exact .cons (h.1 n) (ih (n + 1) h.2)

namespace RecursorApplied

variable {ls : List Level} {as mins : List Term} {mot : Term}

/-- The fields of a constructor are fields for the minor premise, if its levels and parameters are those of the
recursor. -/
lemma fields (henv : env.WellTyped) (h : env.FamilyTyped a) (hΓ : env.ContextTyped ps Γ)
    (hΔ : env.BindersTyped ps Γ Δ) (hr : env.RecursorApplied ps Γ Δ a ls as mot mins) {i : Nat}
    {o : OpenedCtor} (ho : a.opened[i]? = some o) {m : Term} (hm : mins[i]? = some m) {f : Level → Level}
    (hf : ∀ l, l.Admitted spec.levelParams → (f l).Same (a.levelsAt ls l)) {params fields : List Term}
    (hparams : List.Forall₂ env.Conv params as)
    (hfields : env.ArgsTyped ps Γ Δ (.putAll .id a.params params) (o.fields.map (·.mapLevels f)) fields) :
    env.ArgsTyped ps Γ Δ (.putAll .id (a.params ++ [a.motive]) (as ++ [mot]))
      (o.fields.map (·.mapLevels (a.levelsAt ls))) fields := by
  have hmem := mem_of_getElem? ho
  have htelescope : Local.AllIn (noFree.pushAll (a.params ++ [a.motive])) (o.fields ++ a.hypotheses o) :=
    minor_telescope_in (h.fields_in hmem)
  obtain ⟨hfieldsIn, hhyps⟩ := Local.allIn_append.mp htelescope
  have hbody : ((a.motive.term.app (spec.ctorApp a.params i o)).pis (a.hypotheses o)).In
      ((noFree.pushAll (a.params ++ [a.motive])).pushAll o.fields) 0 :=
    Term.In.pis hhyps (pushAll_append _ _ _ ▸ minor_body_in)
  have htype := (hr.minor h ho hm).valid henv hΓ hΔ
  rw [Term.pis_append, Term.mapLevels_pis] at htype
  have hfree := freeOnly_noFree.pushAll (a.params ++ [a.motive])
  refine ArgsTyped.convert henv hΓ ((h.fields_in hmem).mapLevels (freeOnly_noFree.pushAll _) _)
    (hfieldsIn.mapLevels hfree _) ?body ?types ?params htype hfields
  case body =>
    rw [pushAll_mapLevels]
    exact hbody.mapLevels_of_freeOnly (hfree.pushAll _) _
  case types =>
    rw [forall₂_map_left_iff, forall₂_map_right_iff]
    refine forall₂_same.mpr fun x hx => ⟨rfl, ?_⟩
    have hin := (Local.allIn_append.mpr ⟨h.params, h.fields o hmem⟩).type_in (mem_append_right _ hx)
    exact .mapLevels_congr hin hf (fun _ _ hls l hl => hf l (hls l hl)) fun _ _ _ hls l hl => hf l (hls l hl)
  case params =>
    -- The types of the fields see the parameters, and not the motive.
    intro y hy
    have hy : y ∈ a.params.map Local.id := ((pushAll_free _ _ _).mp hy).resolve_left fun h => h
    have hmotive : y ∉ [a.motive].map Local.id := by
      have hnodup := a.params_motive_nodup
      rw [map_append, nodup_append] at hnodup
      exact fun hmem => hnodup.2.2 y hy y hmem rfl
    rw [Replacement.putAll_append _ hr.params_length, Replacement.putAll_free _ hmotive]
    exact .putAll a.params hparams (fun z => .refl _) y

/-- The recursive calls are induction hypotheses for the minor premise. -/
lemma hypotheses (henv : env.WellTyped) (h : env.FamilyTyped a) (hr : env.RecursorApplied ps Γ Δ a ls as mot mins)
    (ho : o ∈ a.opened) (htype : env.IsType ps Γ Δ (spec.familyAt (a.levelsAt ls) as)) {fields : List Term}
    (hfields : env.ArgsTyped ps Γ Δ (.putAll .id (a.params ++ [a.motive]) (as ++ [mot]))
      (o.fields.map (·.mapLevels (a.levelsAt ls))) fields) : env.ArgsTyped ps Γ Δ
      (.putAll .id (a.params ++ [a.motive] ++ o.fields) (as ++ [mot] ++ fields))
      ((a.hypotheses o).map (·.mapLevels (a.levelsAt ls)))
      (o.ctor.calls ((Term.const spec.recursor ls).apply (as ++ [mot] ++ mins)) fields) := by
  have hlen : o.fields.length = fields.length := by simpa using hfields.length_eq
  have hnodup := a.minor_nodup ho
  rw [map_append, nodup_append] at hnodup
  have hnodup := hnodup.1
  have hprefix : (a.params ++ [a.motive]).length = (as ++ [mot]).length := by simp [hr.params_length]
  generalize hs : Replacement.putAll .id (a.params ++ [a.motive] ++ o.fields) (as ++ [mot] ++ fields) = s
  have hterms : (o.fields.map Local.term).map (·.replace s) = fields := by
    rw [← hs, Replacement.putAll_append _ hprefix]
    exact Replacement.putAll_terms _ hlen (map_append ▸ hnodup).of_append_right
  have hmotive : a.motive.term.replace s = mot := by
    have hleft := Replacement.putAll_terms_left .id fields hprefix hnodup
    rw [hs, map_append, map_append] at hleft
    exact head_eq_of_cons_eq (append_inj' hleft rfl).2
  -- A recursive field is of the type at the parameters.
  have hfield : ∀ x ∈ o.recursiveFields,
      env.HasType True ps Γ Δ (x.term.replace s) (spec.familyAt (a.levelsAt ls) as) := by
    intro x hx
    obtain ⟨j, hj⟩ := mem_iff_getElem?.mp (OpenedCtor.mem_fields_of_recursive hx)
    have hget := hfields.get (i := j) (x := x.mapLevels (a.levelsAt ls)) (a := x.term.replace s)
      (by simp [hj]) (by rw [← hterms]; simp [hj])
    have hparams : (a.params.map Local.term).map (·.replace ((Replacement.putAll .id (a.params ++ [a.motive])
        (as ++ [mot])).putAll (o.fields.take j) (fields.take j))) = as := by
      rw [← Replacement.putAll_append _ hprefix]
      simp only [append_assoc] at hnodup ⊢
      exact Replacement.putAll_terms_left _ _ hr.params_length
        (hnodup.sublist (.map _ (.append_left (.append_left (take_sublist _ _) _) _)))
    have halpha : env.Conv x.type (spec.selfApp a.params) := .of_alphaEq (a.recursive_alphaEq ho hx)
    have hconv := (halpha.mapLevels henv.inScope a.recursorDecl.levelParams ls).replace henv.admits_noFree
      ((Replacement.putAll .id (a.params ++ [a.motive]) (as ++ [mot])).putAll (o.fields.take j) (fields.take j))
    rw [← map_take, Replacement.putAll_mapLevels] at hget
    exact hget.conv_type (replace_selfApp hparams (a.levelsAt ls) ▸ hconv) htype
  have hcalls : o.ctor.calls ((Term.const spec.recursor ls).apply (as ++ [mot] ++ mins)) fields =
      o.recursiveFields.map fun x =>
        ((Term.const spec.recursor ls).apply (as ++ [mot] ++ mins)).app (x.term.replace s) := by
    rw [← hterms, Constructor.calls, OpenedCtor.recursiveFields, map_map, zip_map_left, filter_map, map_map, map_map]
    rfl
  rw [hcalls]
  refine ArgsTyped.of_forall₂ (S := noFree.pushAll (a.params ++ [a.motive] ++ o.fields)) ?types ?fresh ?calls
  case types =>
    intro x hx
    obtain ⟨y, hy, rfl⟩ := mem_map.mp hx
    exact (a.hypotheses_in hy).mapLevels_of_freeOnly (freeOnly_noFree.pushAll _) _
  case fresh =>
    intro x hx
    obtain ⟨y, hy, rfl⟩ := mem_map.mp hx
    rw [Local.id_mapLevels]
    exact a.hypotheses_fresh ho hy
  case calls =>
    rw [forall₂_map_left_iff, forall₂_map_right_iff, Accepted.hypotheses, InductiveSpec.hypotheses,
      forall₂_map_right_iff]
    refine forall₂_zipIdx 0 fun x hx j => ?_
    have hconclusion : (a.motive.term.app x.term).replace s = mot.app (x.term.replace s) :=
      congrArg (Term.app · _) hmotive
    show env.HasType True ps Γ Δ _ ((a.motive.term.app x.term).replace s)
    rw [hconclusion]
    exact hr.app h (hfield x hx)

lemma minor_apply (h : env.FamilyTyped a) (hr : env.RecursorApplied ps Γ Δ a ls as mot mins)
    (ho : a.opened[i]? = some o) {m : Term} (hm : mins[i]? = some m) {fields calls : List Term}
    (hfields : env.ArgsTyped ps Γ Δ (.putAll .id (a.params ++ [a.motive]) (as ++ [mot]))
      (o.fields.map (·.mapLevels (a.levelsAt ls))) fields) (hcalls : env.ArgsTyped ps Γ Δ
      (.putAll .id (a.params ++ [a.motive] ++ o.fields) (as ++ [mot] ++ fields))
      ((a.hypotheses o).map (·.mapLevels (a.levelsAt ls))) calls) :
    env.HasType True ps Γ Δ (m.apply (fields ++ calls)) (mot.app
      ((Term.ctor spec.name i o.ctor.name (spec.levels.map (a.levelsAt ls))).apply (as ++ fields))) := by
  have hmem := mem_of_getElem? ho
  have hprefix : (a.params ++ [a.motive]).length = (as ++ [mot]).length := by simp [hr.params_length]
  have hlenFields : o.fields.length = fields.length := by simpa using hfields.length_eq
  have hlenCalls : (a.hypotheses o).length = calls.length := by simpa using hcalls.length_eq
  have hminor := hr.minor h ho hm
  rw [Term.mapLevels_pis, map_append] at hminor
  rw [Replacement.putAll_append _ hprefix, ← Replacement.putAll_mapLevels _ (a.levelsAt ls) o.fields] at hcalls
  have hargs := hfields.append hcalls
  have hfree := freeOnly_noFree.pushAll (a.params ++ [a.motive])
  have htelescope : Local.AllIn (noFree.pushAll (a.params ++ [a.motive])) (o.fields ++ a.hypotheses o) :=
    minor_telescope_in (h.fields_in hmem)
  have happ := hminor.apply_pis (map_append ▸ htelescope.mapLevels hfree _) (by
    rw [← map_append, pushAll_mapLevels]
    exact Term.In.mapLevels_of_freeOnly (hfree.pushAll _) minor_body_in _) hargs
  rw [← map_append, Replacement.putAll_mapLevels, ← Replacement.putAll_append _ hprefix,
    ← append_assoc, ← append_assoc, a.replace_minor_body hmem hr.params_length hlenFields hlenCalls]
    at happ
  exact happ

end RecursorApplied

/-- The recursor on a constructor contracts to a term of the same type, if no universe parameter is declared
twice. -/
lemma FamilyTyped.iota (henv : env.WellTyped) (h : env.FamilyTyped a) (hnodup : spec.levelParams.Nodup)
    {ls ls' : List Level} {i : Nat} {k : Constructor} {n : Name} {args params fields : List Term} {minor : Term}
    (hk : a.info.ctors[i]? = some k) (hargs : args.length = majorIndex a.info)
    (hparams : params.length = spec.numParams) (hfields : fields.length = k.numFields)
    (hminor : args[spec.numParams + 1 + i]? = some minor) (hΓ : env.ContextTyped ps Γ)
    (hΔ : env.BindersTyped ps Γ Δ) {T : Term}
    (ht : env.HasType True ps Γ Δ (.app ((Term.const spec.recursor ls).apply args)
      ((Term.ctor spec.name i n ls').apply (params ++ fields))) T) : env.HasType True ps Γ Δ
      (minor.apply (fields ++ k.calls ((Term.const spec.recursor ls).apply args) fields)) T := by
  have hT := ht.valid henv hΓ hΔ
  obtain ⟨o, ho, rfl⟩ : ∃ o, a.opened[i]? = some o ∧ o.ctor = k := by
    simpa [Accepted.info] using hk
  have hmem := mem_of_getElem? ho
  obtain ⟨as, mot, mins, rfl, hr, hmajor, hconv⟩ := h.recursor_inv henv hΓ hΔ hargs ht
  have hm : mins[i]? = some minor := by
    rw [← hminor, ← a.params_length, hr.params_length, getElem?_append_right (by simp),
      length_append, length_singleton, Nat.add_sub_cancel_left]
  obtain ⟨hlen, hlevels, hparams', hfields'⟩ := h.ctor_inv henv hΓ hΔ ho (a.params_length.trans hparams.symm)
    ((a.fields_length_eq hmem).trans hfields.symm) hmajor
  have hsame : ∀ l : Level, l.Admitted spec.levelParams →
      (l.instantiateParams spec.levelParams ls').Same (a.levelsAt ls l) := by
    rw [levels, map_map, map_map, forall₂_map_left_iff, forall₂_map_right_iff, forall₂_same] at hlevels
    exact fun l hl => hl.same_subst hlevels
  have hfields' := hr.fields henv h hΓ hΔ ho hm hsame hparams' hfields'
  have hhyps := hr.hypotheses henv h hmem (hmajor.valid henv hΓ hΔ) hfields'
  have happ := hr.minor_apply h ho hm hfields' hhyps
  -- The constructor carries the levels that its type gives, since no parameter is declared twice.
  rw [levels, Level.map_instantiateParams_param hnodup hlen] at hlevels
  have hctor : env.Conv ((Term.ctor spec.name i n ls').apply (params ++ fields))
      ((Term.ctor spec.name i o.ctor.name (spec.levels.map (a.levelsAt ls))).apply (as ++ fields)) :=
    (Conv.ctor hlevels).apply (rel_append hparams' (forall₂_same.mpr fun m _ => .refl m))
  exact happ.conv_type ((Conv.app (.refl mot) hctor.symm).trans hconv) hT

end Env

end ProofAssistant
