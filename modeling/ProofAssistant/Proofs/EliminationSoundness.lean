import ProofAssistant.Proofs.CaseTyping
import ProofAssistant.Proofs.PendingGoals

/-!
# Case analysis and induction are sound

Case analysis and induction solve a goal by the recursor, on a motive and on minor premises with a hole in each. If the
checker accepts the goal (`Goal.Checked`), then all that a run works on is typed (`Elimination.Run.typed`). The recursor
of a type that has a universe parameter twice is about the type at other levels, so such types are left out.
-/

namespace ProofAssistant

open List Term Context

variable {g : Goal} {x : Local}
variable {j i k : Nat} {value : Id → Option Term} {env : Env}

open InductiveSpec

/-! ## Filling holes with hypotheses -/

lemma lookup_zip_eq_some {α β : Type} [BEq α] [LawfulBEq α] {as : List α} (hnodup : as.Nodup) {bs : List β}
    {a : α} {b : β} (ha : as[j]? = some a) (hb : bs[j]? = some b) : (as.zip bs).lookup a = some b := by
  have hmem : (a, b) ∈ as.zip bs := mem_of_getElem? (getElem?_zip_eq_some.mpr ⟨ha, hb⟩)
  refine lookup_of_mem ?_ hmem
  rw [zip_eq_zip_take_min, map_fst_zip (by simp)]
  exact hnodup.sublist (take_sublist _ as)

namespace Term

variable {value : Id → Option Term}

lemma fillHoles_free (x : Id) : (free x).fillHoles value = free x := by
  rfl

end Term

lemma Goal.fillHoles_hole {x : Id} (h : value g.id = some (.free x)) :
    g.hole.fillHoles value = (free x).apply g.context.terms := by
  have hterms : g.context.terms.map (·.fillHoles value) = g.context.terms := by
    rw [terms, map_map]
    exact map_congr_left fun y _ => fillHoles_free y.id
  rw [hole, holeAs, fillHoles, fillHolesApp_apply, hterms, append_nil, fillHolesApp_some h, beta_free]

/-! ## The recursor on its arguments -/

namespace Env

variable {env : Env} {ps : List Name} {Γ : Context} {E : Env} {fuel next : Nat} {spec : InductiveSpec}
  {a : Accepted E fuel next spec}

lemma minors_of_opened (hx : a.minors[i]? = some x) : ∃ o, a.opened[i]? = some o ∧
    x.type = (a.motive.term.app (spec.ctorApp a.params i o)).pis (o.fields ++ a.hypotheses o) := by
  have hlt := (List.getElem?_eq_some_iff.mp hx).1
  rw [a.minors_length] at hlt
  obtain ⟨y, hy, htype⟩ := a.minors_getElem? (getElem?_eq_getElem hlt)
  obtain rfl := Option.some.inj (hy.symm.trans hx)
  exact ⟨_, getElem?_eq_getElem hlt, htype⟩

/-- The recursor on parameters, a motive and minor premises of the types that it asks for, which are types. -/
lemma FamilyTyped.recursorApplied (henv : env.WellTyped) (h : env.FamilyTyped a) (hΓ : env.ContextTyped ps Γ)
    {ls : List Level} (hlen : a.recursorDecl.levelParams.length = ls.length) (hls : ∀ l ∈ ls, l.Admitted ps)
    {as mins : List Term} {mot : Term}
    (hparams : env.ArgsTyped ps Γ [] .id (a.params.map (·.mapLevels (a.levelsAt ls))) as)
    (hmot : env.HasType True ps Γ [] mot ((a.motive.type.mapLevels (a.levelsAt ls)).replace (.putAll .id a.params as)))
    (hminsLen : a.minors.length = mins.length)
    (hmins : ∀ i o m, a.opened[i]? = some o → mins[i]? = some m → env.IsType ps Γ [] (a.minorAt ls as mot i o) →
      env.HasType True ps Γ [] m (a.minorAt ls as mot i o)) : env.RecursorApplied ps Γ [] a ls as mot mins := by
  have hprefix : env.ArgsTyped ps Γ [] .id ((a.params ++ [a.motive]).map (·.mapLevels (a.levelsAt ls)))
      (as ++ [mot]) := by
    rw [map_append]
    exact hparams.append (.cons (by rwa [Replacement.putAll_mapLevels]) (.nil _))
  have htype := (h.recursor_typed hlen hls).valid henv hΓ bindersTyped_nil
  have htelescope := h.recursor_telescope.mapLevels freeOnly_noFree (a.levelsAt ls)
  have hbody : (a.motive.term.app a.major.term).In (noFree.pushAll
      ((a.params ++ [a.motive] ++ a.minors ++ [a.major]).map (·.mapLevels (a.levelsAt ls)))) 0 := by
    rw [Scope.pushAll_mapLevels]
    exact recursor_body_in
  rw [map_append, map_append] at htelescope hbody htype
  rw [Scope.pushAll_append, Scope.pushAll_append] at hbody
  rw [pis_append, pis_append] at htype
  obtain ⟨hbefore, hmajor⟩ := Local.allIn_append.mp htelescope
  obtain ⟨hprefixIn, hminors⟩ := Local.allIn_append.mp hbefore
  rw [Scope.pushAll_append] at hmajor
  have hconclusion := Term.In.pis hmajor hbody
  -- the type of the recursor, on the parameters and the motive, is a product over the minor premises
  have hrest := hprefix.isType henv.inScope hΓ.inScope hprefixIn (Term.In.pis hminors hconclusion) htype
  rw [Replacement.putAll_mapLevels] at hrest
  refine ⟨hlen, hls, by simpa using hparams.length_eq, hminsLen, ?_⟩
  rw [map_append]
  refine hprefix.append ?_
  rw [Replacement.putAll_mapLevels]
  refine ArgsTyped.of_isType henv.inScope hΓ.inScope (S := noFree.pushAll (a.params ++ [a.motive])) ?types ?fresh
    hminors hconclusion hrest ?minors
  case types =>
    intro x hx
    obtain ⟨y, hy, rfl⟩ := mem_map.mp hx
    obtain ⟨i, hi⟩ := mem_iff_getElem?.mp hy
    obtain ⟨o, ho, htype⟩ := minors_of_opened hi
    have hin : y.type.In (noFree.pushAll (a.params ++ [a.motive])) 0 := by
      rw [htype]
      exact minorType_in (h.fields_in (mem_of_getElem? ho))
    exact hin.mapLevels_of_freeOnly (freeOnly_noFree.pushAll _) _
  case fresh =>
    simpa using a.minors_fresh
  case minors =>
    refine forall₂_iff_get.mpr ⟨by rw [length_map, hminsLen], fun i hi hi' => ?_⟩
    have hx : i < a.minors.length := hminsLen ▸ hi
    obtain ⟨o, ho, htype⟩ := minors_of_opened (getElem?_eq_getElem hx)
    have hminor := hmins i o _ ho (getElem?_eq_getElem hi)
    rw [Accepted.minorAt, ← htype] at hminor
    simpa [Local.mapLevels] using hminor

end Env

namespace Elaborator.Elimination.Typed

open Env

variable {e : Elimination} {env : Env} {ps : List Name} {next : Nat} {level : Level} {T : FamilyInstance}
  {E : Env} {fuel n : Nat} {spec : InductiveSpec} {a : Accepted E fuel n spec} {D : Context} {ls : List Level}

section Recursor

variable (henv : env.WellTyped) (he : e.Typed env ps next level T a) (hls : T.recursorLevels? level = some ls)
  (hD : env.ContextTyped ps D) (hle : e.kept.Within D)
include henv he hls hD hle

lemma motive_for_recursor (hlevel : level.Admitted ps) : env.HasType True ps D [] e.motive
    ((a.motive.type.mapLevels (a.levelsAt ls)).replace (.putAll .id a.params T.params)) := by
  have hkept := he.kept henv.inScope
  have hparams : (a.params.map Local.term).map (·.replace (.putAll .id a.params T.params)) = T.params :=
    Replacement.putAll_terms _ he.type.params_length
      (a.params_motive_nodup.sublist ((sublist_append_left _ _).map _))
  have htype : (a.motive.type.mapLevels (a.levelsAt ls)).replace (.putAll .id a.params T.params) =
      .pi ⟨"t"⟩ false (spec.familyAt T.levelAt T.params)
        (.sort (a.levelsAt ls (((spec.elimLevel a.sort).map Level.param).getD .zero))) := by
    rw [← he.type.familyAt_levelsAt hls, ← replace_selfApp hparams]
    exact Eq.refl _
  have hmotive := (he.motive_typed henv.inScope).within henv.inScope hkept.inScope hD.inScope hle
  obtain ⟨l, hreduced⟩ := he.reduced.within henv.inScope hkept.inScope hD.inScope hle
  rw [htype]
  refine hmotive.conv_type (.pi he.conv.symm (.sort (he.type.levelsAt_motive hls).symm)) ⟨_, .pi hreduced (.sort ?_)⟩
  exact he.type.levelsAt_motive_admitted hls hlevel

/-- The recursor on the motive and on minor premises shows the target. -/
lemma eliminate_typed (hlevel : level.Admitted ps) (hmajor : env.HasType True ps D [] e.major.term e.major.type)
    (hdependents : ∀ y ∈ e.dependents, env.HasType True ps D [] y.term y.type) {mins : List Term}
    (hlen : a.minors.length = mins.length) (hmins : ∀ i o m, a.opened[i]? = some o → mins[i]? = some m →
      env.IsType ps D [] (a.minorAt ls T.params e.motive i o) →
      env.HasType True ps D [] m (a.minorAt ls T.params e.motive i o)) :
    env.HasType True ps D [] (T.eliminate ls e.motive mins e.major.term (e.dependents.map Local.term))
      e.goal.target := by
  have hkept := he.kept henv.inScope
  have hparams : env.ArgsTyped ps D [] .id (a.params.map (·.mapLevels (a.levelsAt ls))) T.params := by
    rw [he.type.mapLevels_levelsAt hls (he.family.params.mono { free := fun _ _ => trivial })]
    exact he.type.params.within henv.inScope hkept.inScope hD.inScope hle
  have hr := he.family.recursorApplied henv hD (he.type.recursorLevels_length hls)
    (he.type.recursorLevels_admitted hls hlevel) hparams (he.motive_for_recursor henv hls hD hle hlevel) hlen hmins
  have hscrutinee : env.HasType True ps D [] e.major.term (spec.familyAt (a.levelsAt ls) T.params) := by
    rw [he.type.familyAt_levelsAt hls]
    exact hmajor.conv_type he.conv.symm (he.reduced.within henv.inScope hkept.inScope hD.inScope hle)
  -- the motive on the major premise is the statement about it
  have hput : Replacement.id.putAll [e.major] ([e.major].map Local.term) = .id :=
    Replacement.putAll_own fun _ _ => Eq.refl _
  have hown : e.statement.replace (Replacement.id.put e.major.id e.major.term) = e.statement :=
    (congrArg e.statement.replace hput).trans (replace_id _)
  have hstatement := (hr.app he.family hscrutinee).conv_type (he.motive_app _)
    (he.statement_typed henv.inScope hD.inScope hle hmajor)
  rw [hown] at hstatement
  have htarget := HasType.apply_self he.arranged.dependents_in he.arranged.target_in hstatement hdependents
  have hname : T.family.recursor = spec.recursor := by
    rw [he.type.family]
    exact Eq.refl _
  rw [FamilyInstance.eliminate, apply_append, apply_append, hname]
  exact htarget

end Recursor

end Elaborator.Elimination.Typed

/-! ## Goals that the checker accepts -/

/-- The checker accepts the hypotheses and the target, and the numbers of the hypotheses are below `next`. -/
structure Goal.Checked (env : Env) (ps : List Name) (next : Nat) (g : Goal) : Prop where
  context : env.ContextAccepted ps g.context
  below : ∀ x ∈ g.context.ids, x.number < next
  target : ∃ fuel n l, (∀ x ∈ g.context.ids, x.number < n) ∧ g.target.Below n ∧
    (env.inferSort ps fuel n g.context g.target).Yields l

namespace Goal.Checked

open Env

variable {env : Env} {ps : List Name} {next : Nat} {g : Goal}

lemma ground (hg : g.Checked env ps next) : g.Ground next where
  fresh := ⟨Nat.zero_le _, hg.context.nodup, fun x hx => ⟨Nat.zero_le _, hg.below _ (mem_map_of_mem hx)⟩⟩
  context := hg.context.allIn
  target := by
    obtain ⟨fuel, n, l, -, htarget, hsort⟩ := hg.target
    obtain ⟨S, _, hS, _⟩ := infersSort_of_inferSort hsort
    refine (hS.in_scope htarget).widen ?_
    rw [Scope.pushAll_eq]
    exact Scope.le_of_free_hole (fun _ hy => .inr hy) fun _ hh => hh

lemma context_typed (henv : env.Supports True) (hg : g.Checked env ps next) : env.ContextTyped ps g.context :=
  (hg.context.contextFor henv hg.below).typed trivial

lemma target_typed (henv : env.Supports True) (hg : g.Checked env ps next) {xs : List Local}
    (hxs : env.TelescopeTyped ps {} xs) (hnodup : (xs.map Local.id).Nodup) (hmem : ∀ y ∈ xs, y ∈ g.context.locals)
    (hocc : g.target.In { free := (· ∈ xs.map Local.id) } 0) : env.IsType ps ⟨xs⟩ [] g.target := by
  obtain ⟨fuel, n, l, hn, htarget, hsort⟩ := hg.target
  exact ⟨l, (infersSort_of_inferSort hsort).rearranged henv hg.context hn hxs hnodup hmem htarget hocc⟩

lemma known_eq (henv : env.Supports True) (hg : g.Checked env ps next) (μ : Metas) : g.known μ = g := by
  have hlocals : g.context.locals.map (fun x => { x with type := μ.instantiate x.type }) = g.context.locals := by
    refine (map_congr_left fun x hx => ?_).trans (map_id _)
    obtain ⟨l, hl⟩ := hg.context_typed henv x.id x (get?_of_mem hg.context.nodup hx)
    rw [instantiate_ground μ (hl.ground hg.below)]
    rfl
  have htarget : μ.instantiate g.target = g.target := by
    obtain ⟨fuel, n, l, hn, htarget, hsort⟩ := hg.target
    have hl := (infersSort_of_inferSort hsort).hasType henv (hg.context.contextFor henv hn) htarget
    exact instantiate_ground μ (hl.ground hn)
  rw [known, hlocals, htarget]

lemma resolved (hg : g.Checked env ps next) : g.target.In env.resolved 0 := by
  obtain ⟨fuel, n, l, -, htarget, hsort⟩ := hg.target
  obtain ⟨S, _, hS, _⟩ := infersSort_of_inferSort hsort
  exact hS.resolved htarget

end Goal.Checked

namespace Elaborator

variable {next : Nat} {xs : List Local}

open Env

variable {E : Elaborator} {ps : List Name} {e : Elimination} {names : List Name} {rest goals new : List Goal}
  {X Y : Situation} {T : FamilyInstance} {level : Level} {levels : List Level} {minors : List Term}
  {before after : List Local}

lemma Elimination.Splits.mem_arranged (h : e.Splits before after) {y : Local}
    (hy : y ∈ e.kept.locals ++ e.major :: e.dependents) : y ∈ e.goal.context.locals := by
  rcases mem_append.mp hy with hy | hy
  · exact e.kept_sublist.subset hy
  · rcases mem_cons.mp hy with rfl | hy
    · exact h.major_mem
    · exact h.dependents_sublist.subset hy

lemma Elimination.Arranged.allIn (h : e.Arranged next) :
    Local.AllIn .ground (e.kept.locals ++ e.major :: e.dependents) ∧
      e.goal.target.In (Scope.ground.pushAll (e.kept.locals ++ e.major :: e.dependents)) 0 := by
  rw [Local.allIn_append, Scope.pushAll_append]
  exact ⟨⟨h.kept_in, h.major_in, h.dependents_in⟩, h.target_in⟩

lemma Elimination.Run.sort_typed (hsound : E.env.Sound) (hg : e.goal.Checked E.env ps X.supply.next)
    (hsplits : e.Splits before after) (h : e.Run E names rest X T level levels new minors goals Y)
    (hadd : E.env.ContextTyped ps (e.kept.add e.major))
    (hstatement : E.env.IsType ps (e.kept.add e.major) [] e.statement) :
    level.Admitted ps ∧ E.env.HasType True ps (e.kept.add e.major) [] e.statement (.sort level) := by
  have htyped := hsound.typed
  have hcontext := hg.context_typed hsound.supports
  have hwithin : (e.kept.add e.major).Within e.goal.context := by
    refine within_of_subset hg.context.nodup fun y hy => hsplits.mem_arranged ?_
    rcases mem_append.mp hy with hy | hy
    · exact mem_append_left _ hy
    · obtain rfl := mem_singleton.mp hy
      exact mem_append_right _ mem_cons_self
  have hresolved : e.statement.In E.env.resolved 0 := by
    refine Term.In.pis (.of_forall fun y hy => ?_) (hg.resolved.widen (Scope.le_pushAll _ _))
    exact hg.context.resolved (hsplits.dependents_sublist.subset hy)
  obtain ⟨l, hl⟩ := hstatement
  have hl' := hl.within htyped.inScope hadd.inScope hcontext.inScope hwithin
  have hlevel := hasType_of_sortOf htyped hsound.iota hcontext hg.below hresolved hl' h.sort
  obtain ⟨_, hvalid⟩ := hlevel.valid htyped hcontext bindersTyped_nil
  have hadmitted := hvalid.sort_inv.1
  have hsame := (hl'.unique htyped hlevel).sort_inj htyped.admits_noFree
  exact ⟨hadmitted, hl.conv_type (.sort hsame) ⟨_, .sort hadmitted⟩⟩

lemma Elimination.Run.typed (henv : Reachable E.env) (hnodup : ∀ t ∈ E.env.inductives, t.levelParams.Nodup)
    (hg : e.goal.Checked E.env ps X.supply.next) (hsplits : e.Splits before after)
    (h : e.Run E names rest X T level levels new minors goals Y) :
    ∃ (E' : Env) (fuel n : Nat) (spec : InductiveSpec) (a : Accepted E' fuel n spec), spec.levelParams.Nodup ∧
      level.Admitted ps ∧ e.Typed E.env ps X.supply.next level T a := by
  have hsound := sound_of_reachable henv fun t ht _ => hnodup t ht
  have htyped := hsound.typed
  have hscoped := htyped.inScope
  have he := hsplits.arranged hg.ground
  have hknown := h.known he henv
  have hempty : E.env.ContextTyped ps {} := fun _ _ hget => nomatch hget
  have htelescope := hg.context.rearranged hsound.supports he.allIn.1 he.fresh.nodup fun _ => hsplits.mem_arranged
  have htarget : E.env.IsType ps ⟨e.kept.locals ++ e.major :: e.dependents⟩ [] e.goal.target := by
    refine hg.target_typed hsound.supports htelescope he.fresh.nodup (fun _ => hsplits.mem_arranged) ?_
    refine he.allIn.2.widen ?_
    rw [Scope.pushAll_eq]
    exact { free := fun _ hz => hz.resolve_left fun h => h, hole := fun _ _ => trivial }
  obtain ⟨hkeptTelescope, hmajor, hfresh, hdependents⟩ := htelescope.of_append
  have hkept : E.env.ContextTyped ps e.kept := hkeptTelescope.context hscoped hempty
  have hadd := hkept.add hscoped hfresh hmajor
  have hstatement : E.env.IsType ps (e.kept.add e.major) [] e.statement := by
    refine IsType.pis hscoped hadd.inScope hdependents ?_
    rwa [locals_add, append_assoc]
  obtain ⟨hadmitted, hsort⟩ := h.sort_typed hsound hg hsplits hadd hstatement
  obtain ⟨hsteps, hfamily, hlen⟩ := steps_of_familyOf? h.family
  obtain ⟨l, hl⟩ := hmajor
  have hbelow : ∀ x ∈ e.kept.ids, x.number < X.supply.next := by
    intro x hx
    obtain ⟨y, hy, rfl⟩ := mem_map.mp hx
    exact hg.below _ (mem_map_of_mem (e.kept_sublist.subset hy))
  rw [instantiate_ground _ (hl.ground hbelow)] at hsteps
  have hreduced := hl.steps htyped hsound.iota hkept bindersTyped_nil hsteps
  have hmem : T.family ∈ E.env.inductives := mem_of_find?_eq_some hfamily
  obtain ⟨E', fuel, n, spec, a, hinfo, hdeclared⟩ := exists_familyDeclared henv (fun t ht _ => hnodup t ht) hmem
  have hspec : spec.levelParams.Nodup := by
    have hlevels := hnodup T.family hmem
    rwa [hinfo] at hlevels
  have hT := hdeclared.typed_instance htyped hkept hinfo hlen ⟨l, hreduced⟩
  refine ⟨E', fuel, n, spec, a, hspec, hadmitted, he, htelescope, htarget, hsort, hdeclared.typed, hT, ?_, hknown, ?_⟩
  · rw [hT.familyAt_eq hspec]
    exact ⟨l, hreduced⟩
  · rw [hT.familyAt_eq hspec]
    exact (Conv.of_steps hsteps).symm

/-! ## Soundness -/

/-- Hypotheses for goals, put for their holes. -/
def assumed (goals : List Goal) (xs : List Local) (h : Id) : Option Term :=
  ((goals.map Goal.id).zip (xs.map Local.term)).lookup h

lemma assumed_of_getElem? (hnodup : (goals.map Goal.id).Nodup) (hg : goals[j]? = some g)
    (hx : xs[j]? = some x) : assumed goals xs g.id = some x.term :=
  lookup_zip_eq_some (j := j) hnodup (by simp [hg]) (by simp [hx])

lemma of_assumed {h : Id} {v : Term} (hv : assumed goals xs h = some v) : ∃ x ∈ xs, v = x.term := by
  obtain ⟨x, hx, rfl⟩ := mem_map.mp (of_mem_zip (mem_of_lookup_eq_some hv)).2
  exact ⟨x, hx, Eq.refl _⟩

lemma fillHoles_of_ground {m : Term} (hm : m.In (Scope.ground.pushAll xs) k) (value : Id → Option Term) :
    m.fillHoles value = m :=
  fillHolesApp_eq_apply hm (fun h hh => absurd hh (Scope.ground_pushAll_hole xs h)) []

/-- The minor premise of a case, where a hypothesis is put for the hole of its goal. -/
lemma Elimination.Case.fillHoles_minor {k : Constructor} {h : CaseHypotheses} {minor : Term}
    (hcase : e.Case env T i k next h g minor)
    (hvalue : ∀ h' v, value h' = some v → v.In { free := fun y => y ∉ h.telescope.map Local.id } 0)
    (hx : value g.id = some x.term) : minor.fillHoles value = (x.term.apply g.context.terms).abs h.telescope := by
  rw [hcase.minor_eq, fillHoles_abs hvalue (fun y hy => ?_), Goal.fillHoles_hole hx]
  · exact Eq.refl _
  · have hin := (hcase.shown_in true).type_in_pushAll hy
    rw [← Scope.pushAll_append] at hin
    exact fillHoles_of_ground hin value

/-- Only the minor premises have holes. -/
lemma Elimination.Arranged.fillHoles_eliminate (he : e.Arranged next)
    (hT : T.Known env (Scope.ground.pushAll e.kept.locals)) (value : Id → Option Term) (levels : List Level)
    (minors : List Term) :
    (T.eliminate levels e.motive minors e.major.term (e.dependents.map Local.term)).fillHoles value =
      T.eliminate levels e.motive (minors.map (·.fillHoles value)) e.major.term (e.dependents.map Local.term) := by
  have hparams : T.params.map (·.fillHoles value) = T.params :=
    (map_congr_left fun m hm => fillHoles_of_ground (hT.params m hm) value).trans (map_id _)
  have hmotive : e.motive.fillHoles value = e.motive := by
    have hin : e.motive.In (Scope.ground.pushAll e.kept.locals) 0 := by
      rw [motive, abs_cons, abs_nil]
      exact ⟨he.major_in, he.statement_in.close_pushed⟩
    exact fillHoles_of_ground hin value
  have hdependents : (e.dependents.map Local.term).map (·.fillHoles value) = e.dependents.map Local.term := by
    rw [map_map]
    exact map_congr_left fun y _ => fillHoles_free y.id
  rw [FamilyInstance.eliminate, fillHoles, fillHolesApp_apply]
  simp only [map_append, map_cons, append_nil, hparams, hmotive, hdependents]
  exact Eq.refl _

section Filled

variable {E' : Env} {fuel n : Nat} {spec : InductiveSpec} {a : Accepted E' fuel n spec} {xs : List Local}

lemma Elimination.Run.cases_opened (henv : Reachable E.env) (he : e.Typed E.env ps X.supply.next level T a)
    (h : e.Run E names rest X T level levels new minors goals Y) :
    new.length = a.opened.length ∧ minors.length = a.opened.length ∧ ∀ (i : Nat) (o : OpenedCtor),
      a.opened[i]? = some o → ∃ hs g minor, new[i]? = some g ∧ minors[i]? = some minor ∧
        g.id.number < Y.supply.next ∧ e.Case E.env T i o.ctor X.supply.next hs g minor := by
  have hctors : T.family.ctors = a.opened.map OpenedCtor.ctor := by
    rw [he.type.family]
    exact Eq.refl _
  obtain ⟨hnewLen, hminorsLen, hcases⟩ :=
    cases_of_ends henv he.arranged he.known (fun _ hk => hk) (Nat.le_refl _) h.cases
  rw [hctors, length_map] at hnewLen hminorsLen
  refine ⟨hnewLen, hminorsLen, fun i o ho => ?_⟩
  obtain ⟨hs, g, minor, hg, hminor, hcase⟩ := hcases i o.ctor (by simp [hctors, ho])
  rw [Nat.zero_add] at hcase
  have hmem := mem_map_of_mem (f := Goal.id) (mem_of_getElem? hg)
  exact ⟨hs, g, minor, hg, hminor, ((between_of_eliminateCases h.cases).2.number g.id hmem).2, hcase⟩

lemma Elimination.Run.assumed_typed (henv : Reachable E.env) (hsound : E.env.Sound)
    (hg : e.goal.Checked E.env ps X.supply.next) (he : e.Typed E.env ps X.supply.next level T a)
    (h : e.Run E names rest X T level levels new minors goals Y)
    (htypes : xs.map Local.type = new.map Goal.closedType) (hids : (xs.map Local.id).Nodup)
    (hfresh : ∀ x ∈ xs, Y.supply.next ≤ x.id.number) : E.env.TelescopeTyped ps e.goal.context xs := by
  have hscoped := hsound.typed.inScope
  have hcontext := hg.context_typed hsound.supports
  obtain ⟨hlen, -, hcases⟩ := h.cases_opened henv he
  refine .of_forall hscoped hcontext (fun x hx => ?_) hids fun x hx hmem => ?_
  · have htype := mem_map_of_mem (f := Local.type) hx
    rw [htypes] at htype
    obtain ⟨g, hg, hgx⟩ := mem_map.mp htype
    obtain ⟨i, hi⟩ := mem_iff_getElem?.mp hg
    have hlt : i < a.opened.length := hlen ▸ (List.getElem?_eq_some_iff.mp hi).1
    have ho := getElem?_eq_getElem hlt
    obtain ⟨hs, g', minor, hg', -, -, hcase⟩ := hcases i _ ho
    obtain rfl := Option.some.inj (hi.symm.trans hg')
    rw [← hgx]
    exact (hcase.goal_typed hsound.typed hsound.iota he ho).within hscoped empty_scoped hcontext.inScope
      fun _ _ hget => nomatch hget
  · have hold := hg.below _ hmem
    have hnext := (between_of_eliminateCases h.cases).1
    have hle := hfresh x hx
    omega

/-- The term that solves the goal is of the type of the target, where hypotheses are put for the holes of the new
goals. -/
lemma Elimination.Run.filled_typed (henv : Reachable E.env) (hsound : E.env.Sound)
    (hg : e.goal.Checked E.env ps X.supply.next) (hsplits : e.Splits before after)
    (hspec : spec.levelParams.Nodup) (hlevel : level.Admitted ps) (he : e.Typed E.env ps X.supply.next level T a)
    (h : e.Run E names rest X T level levels new minors goals Y)
    (htypes : xs.map Local.type = new.map Goal.closedType) (hids : (xs.map Local.id).Nodup)
    (hfresh : ∀ x ∈ xs, Y.supply.next ≤ x.id.number) : E.env.HasType True ps ⟨e.goal.context.locals ++ xs⟩ []
      ((T.eliminate levels e.motive minors e.major.term (e.dependents.map Local.term)).fillHoles (assumed new xs))
      e.goal.target := by
  have hscoped := hsound.typed.inScope
  have hcontext := hg.context_typed hsound.supports
  have hxs := h.assumed_typed henv hsound hg he htypes hids hfresh
  have hD := hxs.context hscoped hcontext
  have hwithin := within_append fun x hx => hxs.fresh hx
  have hkept : e.kept.Within ⟨e.goal.context.locals ++ xs⟩ :=
    (within_of_subset hg.context.nodup fun y hy => e.kept_sublist.subset hy).trans hwithin
  have hterm {y : Local} (hy : y ∈ e.goal.context.locals) :
      E.env.HasType True ps ⟨e.goal.context.locals ++ xs⟩ [] y.term y.type := by
    have hy : E.env.HasType True ps e.goal.context [] y.term y.type :=
      .free (get?_of_mem hg.context.nodup hy)
    exact hy.within hscoped hcontext.inScope hD.inScope hwithin
  have hls : T.recursorLevels? level = some levels := by
    have hrecursor := h.recursor
    rwa [Level.instantiateLevel_ground _ hlevel.1] at hrecursor
  obtain ⟨-, hlen, hcases⟩ := h.cases_opened henv he
  rw [he.arranged.fillHoles_eliminate he.known]
  refine he.eliminate_typed hsound.typed hls hD hkept hlevel (hterm hsplits.major_mem)
    (fun y hy => hterm (hsplits.dependents_sublist.subset hy)) ?_ fun i o m ho hm htype => ?_
  · rw [a.minors_length, length_map, hlen]
  obtain ⟨hs, g, minor, hgi, hminor, hlt, hcase⟩ := hcases i o ho
  obtain rfl : minor.fillHoles (assumed new xs) = m := by simpa [hminor] using hm
  -- the hypothesis for the goal of this case
  have hgx : (xs.map Local.type)[i]? = some g.closedType := by
    rw [htypes, getElem?_map, hgi]
    exact Eq.refl _
  rw [getElem?_map] at hgx
  obtain ⟨x, hx, hxg⟩ := Option.map_eq_some_iff.mp hgx
  have hG := hxs.hasType_mem hscoped hcontext (mem_of_getElem? hx)
  rw [hxg] at hG
  -- the hypotheses of the case are newer than those of the goal and older than `xs`
  have hnumber {y : Local} (hy : y ∈ hs.telescope) :
      X.supply.next ≤ y.id.number ∧ y.id.number < Y.supply.next := by
    have hy := hcase.hypotheses.between.number y hy
    omega
  have hdistinct : ∀ x ∈ xs, x.id ∉ hs.telescope.map Local.id := by
    intro x hx hmem
    obtain ⟨y, hy, hyx⟩ := mem_map.mp hmem
    have hlt := (hnumber hy).2
    have hle := hfresh x hx
    rw [hyx] at hlt
    omega
  have hnew : ∀ y ∈ hs.telescope, y.id ∉ ids ⟨e.goal.context.locals ++ xs⟩ := by
    intro y hy hmem
    rw [ids, map_append, mem_append] at hmem
    rcases hmem with hmem | hmem
    · have hlt := hg.below _ hmem
      have hle := (hnumber hy).1
      omega
    · obtain ⟨x, hx, hxy⟩ := mem_map.mp hmem
      exact hdistinct x hx (hxy ▸ mem_map_of_mem hy)
  rw [hcase.fillHoles_minor (fun h v hv => ?_)
    (assumed_of_getElem? (between_of_eliminateCases h.cases).2.nodup hgi hx)]
  · exact hcase.minor_typed hsound.typed hsound.iota he ho hD hkept hnew hspec hls hG htype
  · obtain ⟨x, hx, rfl⟩ := of_assumed hv
    exact hdistinct x hx

end Filled

/-- Case analysis and induction are sound. If the checker accepts the goal, then the term that solves it is of the type
of the target, where a new hypothesis is put for the hole of each new goal. No inductive type may have a universe
parameter twice. -/
theorem eliminate_sound (henv : Reachable E.env) (hnodup : ∀ t ∈ E.env.inductives, t.levelParams.Nodup) {g : Goal}
    (hg : g.Checked E.env ps X.supply.next) {induction : Bool} {name : Name}
    (hrun : (E.eliminate induction name names (g :: rest)).Ends X goals Y) :
    ∃ new m, Id.Between X.supply.next Y.supply.next (new.map Goal.id) ∧
      goals = (new ++ rest).filter (!Y.metas.isAssigned ·.id) ∧ Y.metas = X.metas.assignGoal g m ∧
      ∀ xs : List Local, xs.map Local.type = new.map Goal.closedType → (xs.map Local.id).Nodup →
        (∀ x ∈ xs, Y.supply.next ≤ x.id.number) → E.env.TelescopeTyped ps g.context xs ∧
          E.env.HasType True ps ⟨g.context.locals ++ xs⟩ [] (m.fillHoles (assumed new xs)) g.target := by
  have hsound := sound_of_reachable henv fun t ht _ => hnodup t ht
  obtain ⟨e, before, after, T, level, levels, new, minors, hgoal, -, -, hsplits, h⟩ :=
    of_ends_eliminate hg.context.nodup hrun
  rw [hg.known_eq hsound.supports] at hgoal
  subst hgoal
  obtain ⟨E', fuel, n, spec, a, hspec, hlevel, he⟩ := h.typed henv hnodup hg hsplits
  refine ⟨new, _, (between_of_eliminateCases h.cases).2, h.goals_eq, h.solved, fun xs htypes hids hfresh => ⟨?_, ?_⟩⟩
  · exact h.assumed_typed henv hsound hg he htypes hids hfresh
  · exact h.filled_typed henv hsound hg hsplits hspec hlevel he htypes hids hfresh

end Elaborator

namespace Goal

open Elaborator (assumed)

/-- Induction on a number `n`, of which `h : P n` is known and `P n` is to be shown. -/
theorem induction_typed : ∃ (env : Env) (goals : List Goal) (Y : Situation) (m : Term) (xs : List Local),
    let E : Elaborator := { env := env, fuel := 12 }
    let P : Local := .new 0 ⟨"P"⟩ (.pi ⟨"n"⟩ false (.const ⟨"N"⟩ []) .prop)
    let n : Local := .new 1 ⟨"n"⟩ (.const ⟨"N"⟩ [])
    let h : Local := .new 2 ⟨"h"⟩ (P.term.app n.term)
    let g : Goal := ⟨⟨3, none⟩, ⟨[P, n, h]⟩, P.term.app n.term⟩
    Env.Reachable env ∧ (∀ t ∈ env.inductives, t.levelParams.Nodup) ∧ g.Checked env [] 4 ∧
      (E.eliminate true ⟨"n"⟩ [] [g]).Ends ⟨⟨4, []⟩, {}⟩ goals Y ∧ goals.length = 2 ∧
      Y.metas = Metas.assignGoal {} g m ∧ xs.map Local.type = goals.map closedType ∧
      env.TelescopeTyped [] g.context xs ∧
      env.HasType True [] ⟨g.context.locals ++ xs⟩ [] (m.fillHoles (assumed goals xs)) g.target := by
  let P : Local := .new 0 ⟨"P"⟩ (.pi ⟨"n"⟩ false (.const ⟨"N"⟩ []) .prop)
  let n : Local := .new 1 ⟨"n"⟩ (.const ⟨"N"⟩ [])
  let h : Local := .new 2 ⟨"h"⟩ (P.term.app n.term)
  let g : Goal := ⟨⟨3, none⟩, ⟨[P, n, h]⟩, P.term.app n.term⟩
  let X : Situation := ⟨⟨4, []⟩, {}⟩
  have hadd : ∃ env, (({} : Env).addInductive 20 0 Env.numbers).Yields env ∧
      (∀ t ∈ env.inductives, t.levelParams = []) ∧
      (∃ l, (env.inferSort [] 20 0 {} P.type).Yields l) ∧
      (∃ l, (env.inferSort [] 20 1 (Context.add {} P) n.type).Yields l) ∧
      (∃ l, (env.inferSort [] 20 2 ((Context.add {} P).add n) h.type).Yields l) ∧
      (∃ l, (env.inferSort [] 20 3 g.context g.target).Yields l) ∧
      ((((Elaborator.eliminate { env := env, fuel := 12 } true ⟨"n"⟩ [] [g]).run {}).run ⟨4, []⟩).run.bind
        Except.toOption).map (fun r => r.1.1.length) = some 2 :=
    ⟨_, rfl, List.forall_mem_singleton.mpr rfl, ⟨_, rfl⟩, ⟨_, rfl⟩, ⟨_, rfl⟩, ⟨_, rfl⟩, by decide +kernel⟩
  obtain ⟨env, hN, hlevels, ⟨_, hP⟩, ⟨_, hn⟩, ⟨_, hh⟩, ⟨_, htarget⟩, hrun⟩ := hadd
  obtain ⟨goals, Y, hrun, hlen⟩ := ElabM.exists_ends_of_run (X := X) hrun
  have henv : Env.Reachable env := .single (.family Env.numbers_below hN)
  have hnodup (t : InductiveType) (ht : t ∈ env.inductives) : t.levelParams.Nodup :=
    hlevels t ht ▸ .nil
  have hcontext : env.ContextAccepted [] g.context := by
    refine .add (.add (.add .nil ?_ ?_ ?_ hP) ?_ ?_ ?_ hn) ?_ ?_ ?_ hh
    all_goals first
      | decide
      | simp [P, n, h, Local.new, Local.term, Term.Below, Term.prop, Term.In]
  have hg : g.Checked env [] 4 := by
    refine ⟨hcontext, by decide, 20, 3, _, by decide, ?_, htarget⟩
    simp [g, P, n, Local.new, Local.term, Term.Below, Term.In]
  obtain ⟨new, m, hnew, hgoals, hY, htyped⟩ :=
    Elaborator.eliminate_sound (E := { env := env, fuel := 12 }) henv hnodup hg hrun
  -- the new goals are still open
  have hopen : ∀ g' ∈ new, Y.metas.isAssigned g'.id = false := by
    intro g' hg'
    have hle := (hnew.number g'.id (List.mem_map_of_mem hg')).1
    have hne : g'.id ≠ g.id := fun heq => absurd (heq ▸ hle) (by decide)
    rw [hY, Metas.assignGoal, Metas.isAssigned_assign, beq_eq_false_iff_ne.mpr hne]
    rfl
  obtain rfl : goals = new := by
    rw [hgoals, List.append_nil]
    exact List.filter_eq_self.mpr fun g' hg' => by rw [hopen g' hg']; rfl
  obtain ⟨g₁, g₂, rfl⟩ := List.length_eq_two.mp hlen
  let xs : List Local := [.new Y.supply.next ⟨"G"⟩ g₁.closedType, .new (Y.supply.next + 1) ⟨"H"⟩ g₂.closedType]
  have hxs : ∀ x ∈ xs, Y.supply.next ≤ x.id.number := by simp [xs, Local.new]
  obtain ⟨htelescope, hm⟩ := htyped xs rfl (by simp [xs, Local.new]) hxs
  exact ⟨env, [g₁, g₂], Y, m, xs, henv, hnodup, hg, hrun, rfl, hY, rfl, htelescope, hm⟩

/-- Two universe parameters of the same name break this. The recursor of the type `T` is about `T.{0,0}` where its
levels are `0, 1`, but the motive is about the type `T.{0,1}` of the hypothesis. -/
theorem repeated_levels_cases_ill_typed : ∃ (env : Env) (new : List Goal) (Y : Situation) (m : Term),
    let E : Elaborator := { env := env, fuel := 12 }
    let A : Local := .new 0 ⟨"A"⟩ .type
    let a : Local := .new 1 ⟨"a"⟩ A.term
    let x : Local := .new 2 ⟨"x"⟩ (.const ⟨"T"⟩ [.zero, .one])
    let g : Goal := ⟨⟨3, none⟩, ⟨[A, a, x]⟩, A.term⟩
    Env.Reachable env ∧ g.Checked env [] 4 ∧ (E.eliminate false ⟨"x"⟩ [] [g]).Ends ⟨⟨4, []⟩, {}⟩ new Y ∧
      Y.metas = Metas.assignGoal {} g m ∧ ∀ (strict : Prop) (xs : List Local),
        ¬ env.HasType strict [] ⟨g.context.locals ++ xs⟩ [] (m.fillHoles (assumed new xs)) g.target := by
  let A : Local := .new 0 ⟨"A"⟩ .type
  let a : Local := .new 1 ⟨"a"⟩ A.term
  let x : Local := .new 2 ⟨"x"⟩ (.const ⟨"T"⟩ [.zero, .one])
  let g : Goal := ⟨⟨3, none⟩, ⟨[A, a, x]⟩, A.term⟩
  let motive : Term := .lam ⟨"x"⟩ x.type A.term
  let minor : Term := (Term.hole ⟨4, none⟩ false).apply [A.term, a.term]
  let m : Term := (Term.const ⟨"T.rec"⟩ [.one, .zero, .one]).apply [motive, minor, x.term]
  have hadd : ∃ env, (({} : Env).addInductive 20 0 Env.twice).Yields env ∧
      (∃ l, (env.inferSort [] 20 0 {} A.type).Yields l) ∧
      (∃ l, (env.inferSort [] 20 1 (Context.add {} A) a.type).Yields l) ∧
      (∃ l, (env.inferSort [] 20 2 ((Context.add {} A).add a) x.type).Yields l) ∧
      (∃ l, (env.inferSort [] 20 3 g.context g.target).Yields l) ∧
      ((((Elaborator.eliminate { env := env, fuel := 12 } false ⟨"x"⟩ [] [g]).run {}).run ⟨4, []⟩).run.bind
        Except.toOption).map (fun r => (r.1.2.holes, r.1.2.levels, r.1.2.pending)) =
          some ([(g.id, m.abs g.context.locals)], [], []) ∧
      (∃ d, env.get? ⟨"T"⟩ = some d ∧ d.kind = .inductiveType) ∧
      ∀ d ∈ env.decls, d.name = ⟨"T.rec"⟩ → ∃ l b, d.type.instantiateLevelParams d.levelParams [.one, .zero, .one] =
        .pi ⟨"motive"⟩ false (.pi ⟨"t"⟩ false (.const ⟨"T"⟩ [.zero, .zero]) (.sort l)) b := by
    refine ⟨_, rfl, ⟨_, rfl⟩, ⟨_, rfl⟩, ⟨_, rfl⟩, ⟨_, rfl⟩, by decide +kernel, ⟨_, rfl, rfl⟩, ?_⟩
    refine List.forall_mem_cons.mpr ⟨fun _ => ⟨_, _, rfl⟩, List.forall_mem_cons.mpr ⟨fun h => ?_,
      List.forall_mem_singleton.mpr fun h => ?_⟩⟩ <;> exact absurd h (by decide)
  obtain ⟨env, hT, ⟨_, hA⟩, ⟨_, ha⟩, ⟨_, hx⟩, ⟨_, htarget⟩, hrun, ⟨d, hd, hkind⟩, hrec⟩ := hadd
  obtain ⟨⟨new, μ⟩, s, hrun, hμ⟩ :=
    FreshM.exists_ends_of_run (f := fun r : List Goal × Metas => (r.2.holes, r.2.levels, r.2.pending)) hrun
  obtain rfl : μ = Metas.assignGoal {} g m := by
    obtain ⟨holes, levels, pending⟩ := μ
    obtain ⟨rfl, hμ⟩ := Prod.mk.inj hμ
    obtain ⟨rfl, rfl⟩ := Prod.mk.inj hμ
    rfl
  have hbelow : Env.twice.Below 0 := by
    simp [InductiveSpec.Below, Env.twice, Term.Below, Term.type, Term.In]
  have henv : Env.Reachable env := .single (.family hbelow hT)
  have hcontext : env.ContextAccepted [] g.context := by
    refine .add (.add (.add .nil ?_ ?_ ?_ hA) ?_ ?_ ?_ ha) ?_ ?_ ?_ hx
    all_goals first
      | decide
      | simp [A, a, x, Local.new, Local.term, Term.Below, Term.type, Term.In]
  have hg : g.Checked env [] 4 := by
    refine ⟨hcontext, by decide, 20, 3, _, by decide, ?_, htarget⟩
    simp [g, A, Local.new, Local.term, Term.Below, Term.In]
  refine ⟨env, new, ⟨s, _⟩, m, henv, hg, hrun, rfl, fun strict xs h => ?_⟩
  have hadmits : env.Admits InductiveSpec.noFree := (Env.scoped_of_reachable henv).admits_noFree
  obtain ⟨_, _, _, _, h, -, -⟩ := h.app_inv
  obtain ⟨_, _, _, _, h, -, -⟩ := h.app_inv
  obtain ⟨_, _, t, _, hrecursor, hmotive, -⟩ := h.app_inv
  obtain ⟨d', hd', hname, -, -, -, hpi⟩ := hrecursor.const_inv
  obtain ⟨l, b, htype⟩ := hrec d' hd' hname
  rw [htype] at hpi
  obtain ⟨_, B, -, -, hlam⟩ := hmotive.lam_inv
  -- the domain of the motive, and the one that the recursor asks for
  have hconv : env.Conv (x.type.apply []) ((Term.const ⟨"T"⟩ [.zero, .zero]).apply []) :=
    ((hlam.trans (hpi.pi_inj hadmits).1.symm).pi_inj hadmits).1
  have hrigid (vs : List (Level.Valuation → Nat)) : Skel.Rigid env (.const ⟨"T"⟩ vs) 0 :=
    Skel.rigid_const hd (by simp [hkind]) (by simp [hkind]) vs 0
  have hatom := (hconv.apply_inj hadmits rfl rfl (hrigid _) (hrigid _)).1
  have hlevels := (List.cons.inj (Atom.const.inj hatom).2).2
  have hmeaning : Level.one.meaning = Level.zero.meaning := (List.cons.inj hlevels).1
  exact absurd (congrFun hmeaning ⟨fun _ => 0, fun _ => 0⟩) Nat.one_ne_zero

end Goal

end ProofAssistant
