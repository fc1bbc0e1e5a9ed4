import ProofAssistant.Proofs.AcceptedContexts
import ProofAssistant.Proofs.EliminationGoals
import ProofAssistant.Proofs.FamilyInstances

/-!
# The types of the cases

`Elimination.Typed` says that the hypotheses that are kept, the major premise and its dependents are a typed telescope,
and that the statement over them lives in a sort. Then the hypotheses in the case of a constructor are typed over any
context that has the hypotheses that are kept (`Elimination.Case.shown_typed`), and the goal of the case is a type
(`Elimination.Case.goal_typed`).
-/

namespace ProofAssistant

open List Context Term Replacement

variable {G m v : Term} {S : Scope} {k : Constructor}

open InductiveSpec Env

lemma lookup_zip_eq_none {α β : Type} [BEq α] [LawfulBEq α] {as : List α} {a : α} (ha : a ∉ as) (bs : List β) :
    (as.zip bs).lookup a = none := by
  refine lookup_eq_none_iff.mpr fun p hp => ?_
  have hne : a ≠ p.1 := fun h => ha (h ▸ (of_mem_zip hp).1)
  simpa using hne

lemma Replacement.putAll_eq_lookup (s : Replacement) {xs : List Local} (hnodup : (xs.map Local.id).Nodup)
    (as : List Term) (z : Id) : (s.putAll xs as).free z = (((xs.map Local.id).zip as).lookup z).getD (s.free z) := by
  induction xs generalizing s as with
  | nil => rfl
  | cons x xs ih =>
    cases as with
    | nil => rfl
    | cons a as =>
      obtain ⟨hx, hnodup⟩ := nodup_cons.mp hnodup
      rw [putAll, ih (s.put x.id a) hnodup, map_cons, zip_cons_cons, lookup_cons_eq_ite]
      by_cases hzx : z = x.id
      · rw [lookup_zip_eq_none (hzx ▸ hx), if_pos hzx]
        exact if_pos hzx
      · rw [if_neg hzx, show (s.put x.id a).free z = s.free z from if_neg hzx]

lemma Term.subst_single (hv : v.In {} 0) (hm : m.In S 0) (x : Id) :
    m.subst [(x, v)] = m.replace (Replacement.id.put x v) := by
  rw [subst_eq_replace (by simpa using hv)]
  refine hm.replace_congr fun z _ => ?_
  show ([(x, v)].lookup z).getD (.free z) = if z = x then v else .free z
  rw [lookup_cons_eq_ite]
  split <;> rfl

/-- Hypotheses that are new and distinct are new after others of them. -/
lemma Context.fresh_append {Γ : Context} {xs ys : List Local} (hnodup : ((xs ++ ys).map Local.id).Nodup)
    (hfresh : ∀ y ∈ ys, y.id ∉ Γ.ids) : ∀ y ∈ ys, y.id ∉ ids ⟨Γ.locals ++ xs⟩ := by
  intro y hy hmem
  rw [map_append, nodup_append] at hnodup
  rw [ids, map_append, mem_append] at hmem
  rcases hmem with hmem | hmem
  · exact hfresh y hy hmem
  · exact hnodup.2.2 _ hmem _ (mem_map_of_mem hy) rfl

namespace Elaborator.Elimination

/-- The target as it depends on the major premise. -/
def motive (e : Elimination) : Term :=
  e.statement.abs [e.major]

/-- The goal is typed, and so is the inductive type of the major premise, which is declared by `a`. -/
structure Typed (e : Elimination) (env : Env) (ps : List Name) (next : Nat) (level : Level) (T : FamilyInstance)
    {E : Env} {fuel n : Nat} {spec : InductiveSpec} (a : Accepted E fuel n spec) : Prop where
  arranged : e.Arranged next
  telescope : env.TelescopeTyped ps {} (e.kept.locals ++ e.major :: e.dependents)
  target : env.IsType ps ⟨e.kept.locals ++ e.major :: e.dependents⟩ [] e.goal.target
  sort : env.HasType True ps (e.kept.add e.major) [] e.statement (.sort level)
  family : env.FamilyTyped a
  type : T.Typed env ps e.kept a
  reduced : env.IsType ps e.kept [] (spec.familyAt T.levelAt T.params)
  known : T.Known env (Scope.ground.pushAll e.kept.locals)
  conv : env.Conv (spec.familyAt T.levelAt T.params) e.major.type

variable {e : Elimination} {env : Env} {ps : List Name} {next : Nat} {level : Level} {T : FamilyInstance}
  {E : Env} {fuel n : Nat} {spec : InductiveSpec} {a : Accepted E fuel n spec}

namespace Typed

lemma kept (henv : env.Scoped) (he : e.Typed env ps next level T a) : env.ContextTyped ps e.kept := by
  have hempty : env.ContextTyped ps {} := fun _ _ hget => nomatch hget
  exact he.telescope.of_append.1.context henv hempty

section

variable (he : e.Typed env ps next level T a)
include he

lemma major : env.IsType ps e.kept [] e.major.type :=
  he.telescope.of_append.2.1

lemma major_fresh : e.major.id ∉ e.kept.ids :=
  he.telescope.of_append.2.2.1

lemma dependents : env.TelescopeTyped ps (e.kept.add e.major) e.dependents :=
  he.telescope.of_append.2.2.2

end

variable {D : Context} {v : Term}

/-- A term of its type may be put for the major premise. -/
lemma puts_major (henv : env.Scoped) (he : e.Typed env ps next level T a) (hle : e.kept.Within D)
    (hv : env.HasType True ps D [] v e.major.type) :
    Puts env True ps (e.kept.add e.major) [] D [] (Replacement.id.put e.major.id v) := by
  obtain ⟨l, hl⟩ := he.major
  refine (Puts.of_within hle).put (he.kept henv).inScope he.major_fresh hl.in_scope ?_
  rwa [replace_id]

lemma motive_app (he : e.Typed env ps next level T a) (v : Term) :
    env.Conv (e.motive.app v) (e.statement.replace (Replacement.id.put e.major.id v)) := by
  have hbeta : env.Conv (e.motive.app v) ((e.statement.close [e.major.id] 0).instantiate v) := by
    exact .contract (.beta _ _ _ _)
  rwa [instantiate_close he.arranged.statement_in] at hbeta

lemma motive_typed (henv : env.Scoped) (he : e.Typed env ps next level T a) :
    env.HasType True ps e.kept [] e.motive (.pi e.major.name false e.major.type (.sort level)) := by
  obtain ⟨l, hl⟩ := he.major
  have habs := he.sort.abstract henv (he.kept henv).inScope he.major_fresh hl.in_scope
  rw [motive, abs_cons, abs_nil, close_eq_abstracted he.sort.in_scope]
  exact .lam hl habs

lemma statement_typed (henv : env.Scoped) (he : e.Typed env ps next level T a) (hD : D.Scoped)
    (hle : e.kept.Within D) (hv : env.HasType True ps D [] v e.major.type) :
    env.IsType ps D [] (e.statement.replace (Replacement.id.put e.major.id v)) := by
  obtain ⟨l, hl⟩ := he.major
  have hadd := scoped_add (he.kept henv).inScope hl.in_scope
  exact ⟨level, he.sort.replace henv hadd hD (he.puts_major henv hle hv)⟩

end Typed

/-! ## The hypotheses of a case -/

/-- What is put for the major premise and its dependents in the case of a constructor. -/
def caseReplacement (e : Elimination) (T : FamilyInstance) (i : Nat) (k : Constructor) (h : CaseHypotheses) :
    Replacement :=
  (Replacement.id.put e.major.id (T.construct i k (h.fields.map Local.term))).putAll e.dependents
    (h.copies.map Local.term)

namespace Case

variable {i : Nat} {o : OpenedCtor} {h : CaseHypotheses} {g : Goal} {minor : Term} {D : Context}

section

variable (he : e.Typed env ps next level T a)
include he

lemma subst_values (k : Constructor) (hm : m.In S 0) :
    m.subst (h.values T i k e.major e.dependents) = m.replace (e.caseReplacement T i k h) := by
  obtain ⟨hnodup, hmajor⟩ := he.arranged.dependents_nodup
  have hclosed : ∀ p ∈ h.values T i k e.major e.dependents, p.2.In {} 0 := by
    intro p hp
    rcases mem_cons.mp hp with rfl | hp
    · refine he.known.construct_in (Scope.ground_le _) ?_ (fun _ _ => trivial) i k
      exact Scope.le_of_free fun _ _ => trivial
    · obtain ⟨y, -, hyp⟩ := mem_map.mp (of_mem_zip hp).2
      rw [← hyp]
      trivial
  rw [subst_eq_replace hclosed]
  refine hm.replace_congr fun z _ => ?_
  rw [caseReplacement, putAll_eq_lookup _ hnodup]
  show ((h.values T i k e.major e.dependents).lookup z).getD (.free z) = _
  rw [CaseHypotheses.values, lookup_cons_eq_ite]
  by_cases hz : z = e.major.id
  · rw [if_pos hz, lookup_zip_eq_none (hz ▸ hmajor)]
    exact (if_pos hz).symm
  · rw [if_neg hz]
    exact congrArg _ (if_neg hz).symm

lemma copies_types (hcase : e.Case env T i k next h g minor) :
    h.copies.map Local.type = e.dependents.map fun y => y.type.replace (e.caseReplacement T i k h) := by
  rw [hcase.hypotheses.copies_types]
  exact map_congr_left fun y hy => subst_values he k (he.arranged.dependents_in.type_in_pushAll hy)

lemma target_eq (hcase : e.Case env T i k next h g minor) :
    g.target = e.goal.target.replace (e.caseReplacement T i k h) := by
  rw [hcase.target]
  exact subst_values he k he.arranged.target_in

end

section Typed

variable (henv : env.WellTyped) (hiota : env.IotaTyped) (he : e.Typed env ps next level T a)
  (ho : a.opened[i]? = some o) (hcase : e.Case env T i o.ctor next h g minor) (hD : env.ContextTyped ps D)
  (hle : e.kept.Within D) (hfresh : ∀ y ∈ h.telescope, y.id ∉ D.ids)
include henv hiota he ho hcase hD hle hfresh

lemma fields_typed : env.TelescopeTyped ps D h.fields ∧
    env.TelescopeInstance (.putAll .id a.params T.params) (o.fields.map (·.mapLevels T.levelAt)) h.fields := by
  have hkept := he.kept henv.inScope
  have hsublist : h.fields.Sublist h.telescope := (sublist_append_left _ _).trans (sublist_append_left _ _)
  obtain ⟨type, rest, hspecial, -, hopened⟩ := hcase.hypotheses.product
  exact (he.type.within henv.inScope hkept.inScope hD.inScope hle).fields henv hiota hD he.family
    (mem_of_getElem? ho) hspecial hopened hcase.hypotheses.fields_length
    (hcase.hypotheses.between.nodup.sublist (hsublist.map _)) fun y hy => hfresh y (hsublist.subset hy)

lemma construct_typed : env.HasType True ps ⟨D.locals ++ h.fields⟩ []
    (T.construct i o.ctor (h.fields.map Local.term)) e.major.type := by
  have hkept := he.kept henv.inScope
  obtain ⟨hfields, hinst⟩ := hcase.fields_typed henv hiota he ho hD hle hfresh
  exact (he.type.within henv.inScope hkept.inScope hD.inScope hle).construct henv hiota hD he.family ho hfields hinst
    (he.major.within henv.inScope hkept.inScope hD.inScope hle) he.conv

/-- The recursive fields are such as the major premise. -/
lemma recursive_typed {y : Local} (hy : y ∈ o.ctor.recursiveFields h.fields) :
    env.HasType True ps ⟨D.locals ++ h.fields⟩ [] y.term e.major.type := by
  have hkept := he.kept henv.inScope
  obtain ⟨hfields, hinst⟩ := hcase.fields_typed henv hiota he ho hD hle hfresh
  have hcontext := hfields.context henv.inScope hD
  have hwithin := hle.trans (within_append fun z hz => hfields.fresh hz)
  have hterm := hfields.hasType_mem henv.inScope hD (mem_of_mem_recursiveFields hy)
  exact hterm.conv_type ((he.type.recursive henv (mem_of_getElem? ho) hinst hy).trans he.conv)
    (he.major.within henv.inScope hkept.inScope hcontext.inScope hwithin)

lemma ihs_typed : env.TelescopeTyped ps ⟨D.locals ++ h.fields⟩ h.ihs := by
  obtain ⟨hfields, -⟩ := hcase.fields_typed henv hiota he ho hD hle hfresh
  have hcontext := hfields.context henv.inScope hD
  have hwithin := hle.trans (within_append fun z hz => hfields.fresh hz)
  have hnodup := hcase.hypotheses.between.nodup.sublist ((sublist_append_left (h.fields ++ h.ihs) _).map _)
  refine TelescopeTyped.of_forall henv.inScope hcontext (fun x hx => ?_) ?_ ?_
  · -- the statement about a recursive field
    have htype := mem_map_of_mem (f := Local.type) hx
    rw [hcase.hypotheses.ihs_types] at htype
    obtain ⟨y, hy, hxy⟩ := mem_map.mp htype
    rw [← hxy, subst_single (v := y.term) trivial he.arranged.statement_in]
    exact he.statement_typed henv.inScope hcontext.inScope hwithin
      (hcase.recursive_typed henv hiota he ho hD hle hfresh hy)
  · exact hnodup.sublist ((sublist_append_right _ _).map _)
  · exact fresh_append hnodup fun y hy =>
      hfresh y (mem_append_left _ (mem_append_right _ hy))

/-- The hypotheses of the case are typed, and they may be put for those of the goal. -/
lemma shown_typed (induction : Bool) : env.TelescopeTyped ps D (h.shown induction) ∧
    Puts env True ps ⟨e.kept.locals ++ e.major :: e.dependents⟩ [] ⟨D.locals ++ h.shown induction⟩ []
      (e.caseReplacement T i o.ctor h) := by
  have hkept := he.kept henv.inScope
  obtain ⟨hfields, -⟩ := hcase.fields_typed henv hiota he ho hD hle hfresh
  have hmid : env.TelescopeTyped ps ⟨D.locals ++ h.fields⟩ (if induction then h.ihs else []) := by
    split
    · exact hcase.ihs_typed henv hiota he ho hD hle hfresh
    · trivial
  have hcontext := hfields.context henv.inScope hD
  have hfull := hmid.context henv.inScope hcontext
  have hwithin := within_append fun z hz => hfields.fresh hz
  have hwithin' := within_append fun z hz => hmid.fresh hz
  -- the constructor is put for the major premise, and the copies for the dependents
  have hconstruct := (hcase.construct_typed henv hiota he ho hD hle hfresh).within henv.inScope hcontext.inScope
    hfull.inScope hwithin'
  have hputs := he.puts_major henv.inScope ((hle.trans hwithin).trans hwithin') hconstruct
  have hnodup := hcase.hypotheses.between.nodup.sublist ((h.shown_sublist induction).map _)
  have hadd := scoped_add hkept.inScope (by
    obtain ⟨l, hl⟩ := he.major
    exact hl.in_scope)
  obtain ⟨hcopies, hputs⟩ := TelescopeTyped.replace henv.inScope hadd hfull.inScope hputs he.dependents
    (hcase.copies_types he)
    (hnodup.sublist ((sublist_append_right _ _).map _))
    (by
      rw [append_assoc]
      exact fresh_append hnodup fun y hy => hfresh y (mem_append_right _ hy))
  simp only [locals_add, append_assoc] at hcopies hputs
  rw [CaseHypotheses.shown, append_assoc]
  exact ⟨hfields.append (hmid.append (by rwa [append_assoc])), hputs⟩

/-- A function of the type of the hole solves the goal, on the hypotheses of the case. -/
lemma apply_typed (hG : env.HasType True ps D [] G g.closedType) :
    env.HasType True ps ⟨D.locals ++ h.telescope⟩ [] (G.apply g.context.terms)
      (e.goal.target.replace (e.caseReplacement T i o.ctor h)) := by
  have hkept := he.kept henv.inScope
  have htelescope : env.TelescopeTyped ps D h.telescope :=
    (hcase.shown_typed henv hiota he ho hD hle hfresh true).1
  have hcontext := htelescope.context henv.inScope hD
  have hwithin := within_append fun z hz => htelescope.fresh hz
  have hground := hcase.ground he.arranged he.known
  have hempty : env.ContextTyped ps {} := fun _ _ hget => nomatch hget
  rw [← hcase.target_eq he]
  refine HasType.apply_self hground.context hground.target
    (hG.within henv.inScope hD.inScope hcontext.inScope hwithin) fun x hx => ?_
  -- up to its name, the hypothesis is kept or one of the case
  have hentry := mem_map_of_mem (f := Local.entry) hx
  rw [hcase.entries] at hentry
  obtain ⟨y, hy, hyx⟩ := mem_map.mp hentry
  obtain ⟨hid, htype⟩ := Prod.mk.inj hyx
  rw [Local.term, ← hid, ← htype]
  rcases mem_append.mp hy with hy | hy
  · have hterm := he.telescope.of_append.1.hasType_mem henv.inScope hempty hy
    exact hterm.within henv.inScope hkept.inScope hcontext.inScope (hle.trans hwithin)
  · exact htelescope.hasType_mem henv.inScope hD ((h.shown_sublist _).subset hy)

/-- Abstracted over the copies of the dependents, it shows the motive for the constructor. -/
lemma copies_abs_typed (hG : env.HasType True ps D [] G g.closedType) :
    env.HasType True ps ⟨D.locals ++ (h.fields ++ h.ihs)⟩ [] ((G.apply g.context.terms).abs h.copies)
      (e.motive.app (T.construct i o.ctor (h.fields.map Local.term))) := by
  have hkept := he.kept henv.inScope
  have htelescope : env.TelescopeTyped ps D (h.fields ++ h.ihs ++ h.copies) :=
    (hcase.shown_typed henv hiota he ho hD hle hfresh true).1
  obtain ⟨hfields, hcopies⟩ := htelescope.of_append
  have hcontext := hfields.context henv.inScope hD
  have hwithin := hle.trans (within_append fun z hz => hfields.fresh hz)
  have hconstruct : env.HasType True ps ⟨D.locals ++ (h.fields ++ h.ihs)⟩ []
      (T.construct i o.ctor (h.fields.map Local.term)) e.major.type := by
    obtain ⟨hfields', hihs⟩ := hfields.of_append
    have hcontext' := hfields'.context henv.inScope hD
    have hwithin' := within_append fun z hz => hihs.fresh hz
    rw [append_assoc] at hwithin'
    exact (hcase.construct_typed henv hiota he ho hD hle hfresh).within henv.inScope hcontext'.inScope
      hcontext.inScope hwithin'
  have hbody := hcase.apply_typed henv hiota he ho hD hle hfresh hG
  rw [CaseHypotheses.telescope, ← append_assoc] at hbody
  have hinst : env.TelescopeInstance (Replacement.id.put e.major.id (T.construct i o.ctor (h.fields.map Local.term)))
      e.dependents h.copies :=
    .of_types he.arranged.dependents_in he.arranged.dependents_nodup.1 he.arranged.dependents_fresh
      (hcase.copies_types he)
  have habs := hinst.abs henv hiota hcontext he.arranged.dependents_in he.arranged.target_in hcopies
    (he.statement_typed henv.inScope hcontext.inScope hwithin hconstruct) hbody
  have hmotive := (he.motive_typed henv.inScope).within henv.inScope hkept.inScope hcontext.inScope hwithin
  exact habs.conv_type (he.motive_app _).symm ⟨level, hmotive.app hconstruct⟩

/-- Abstracted over the hypotheses of the case, it is a minor premise. -/
lemma minor_typed (hnodup : spec.levelParams.Nodup) {ls : List Level} (hls : T.recursorLevels? level = some ls)
    (hG : env.HasType True ps D [] G g.closedType) (htype : env.IsType ps D [] (a.minorAt ls T.params e.motive i o)) :
    env.HasType True ps D [] ((G.apply g.context.terms).abs h.telescope) (a.minorAt ls T.params e.motive i o) := by
  have hmem := mem_of_getElem? ho
  have htelescope : env.TelescopeTyped ps D (h.fields ++ h.ihs ++ h.copies) :=
    (hcase.shown_typed henv hiota he ho hD hle hfresh true).1
  obtain ⟨hfields, -⟩ := htelescope.of_append
  have hbody := hcase.copies_abs_typed henv hiota he ho hD hle hfresh hG
  have hihs : List.Forall₂ (fun ih y => env.Conv ih.type (e.motive.app y.term)) h.ihs
      (o.ctor.recursiveFields h.fields) := by
    have htypes := hcase.hypotheses.ihs_types
    rw [← forall₂_eq_eq_eq, forall₂_map_left_iff, forall₂_map_right_iff] at htypes
    refine htypes.imp fun ih y hih => ?_
    rw [hih, subst_single (v := y.term) trivial he.arranged.statement_in]
    exact (he.motive_app y.term).symm
  have hinst := he.type.minor he.family hls hmem (hcase.fields_typed henv hiota he ho hD hle hfresh).2 hihs
  rw [Accepted.minorAt, mapLevels_pis] at htype ⊢
  rw [CaseHypotheses.telescope, abs_append]
  refine hinst.abs henv hiota hD ((minor_telescope_in (he.family.fields_in hmem)).mapLevels
    (freeOnly_noFree.pushAll _) _) ?_ hfields htype ?_
  · rw [Scope.pushAll_mapLevels]
    exact minor_body_in.mapLevels_of_freeOnly ((freeOnly_noFree.pushAll _).pushAll _) _
  · have hlen := hinst.length_eq
    have hfieldsLen : o.fields.length = (h.fields.map Local.term).length := by
      rw [length_map, hcase.hypotheses.fields_length, a.fields_length_eq hmem]
    have hihsLen : (a.hypotheses o).length = (h.ihs.map Local.term).length := by
      simp only [length_map, length_append] at hlen hfieldsLen ⊢
      omega
    have hprefix : (a.params ++ [a.motive]).length = (T.params ++ [e.motive]).length := by
      simp [he.type.params_length]
    have hname : spec.name = T.family.name := by
      rw [he.type.family]
      exact Eq.refl _
    have hbodyType : ((a.motive.term.app (spec.ctorApp a.params i o)).mapLevels (a.levelsAt ls)).replace
        ((putAll .id (a.params ++ [a.motive]) (T.params ++ [e.motive])).putAll (o.fields ++ a.hypotheses o)
          ((h.fields ++ h.ihs).map Local.term)) = e.motive.app (T.construct i o.ctor (h.fields.map Local.term)) := by
      rw [← putAll_append _ hprefix, map_append, ← append_assoc, ← append_assoc,
        a.replace_minor_body hmem he.type.params_length hfieldsLen hihsLen, he.type.map_levelsAt hls hnodup, hname]
      exact Eq.refl _
    rw [putAll_mapLevels, hbodyType]
    exact hbody

end Typed

lemma goal_typed (henv : env.WellTyped) (hiota : env.IotaTyped) (he : e.Typed env ps next level T a)
    (ho : a.opened[i]? = some o) (hcase : e.Case env T i o.ctor next h g minor) : env.IsType ps {} [] g.closedType := by
  have hkept := he.kept henv.inScope
  have hentries := hcase.entries
  obtain ⟨hshown, hputs⟩ := hcase.shown_typed henv hiota he ho hkept (Context.Within.refl _)
    (hcase.not_mem_kept he.arranged) e.induction
  have htelescope : env.TelescopeTyped ps {} (e.kept.locals ++ h.shown e.induction) :=
    he.telescope.of_append.1.append hshown
  have hcontext := hshown.context henv.inScope hkept
  have hempty : env.ContextTyped ps {} := fun _ _ hget => nomatch hget
  have hold := he.telescope.context henv.inScope hempty
  have htarget : env.IsType ps ⟨e.kept.locals ++ h.shown e.induction⟩ [] g.target := by
    obtain ⟨l, hl⟩ := he.target
    rw [hcase.target_eq he]
    exact ⟨_, hl.replace henv.inScope hold.inScope hcontext.inScope hputs⟩
  refine IsType.pis henv.inScope empty_scoped
    (htelescope.of_entries henv.inScope empty_scoped (Eq.refl _) hentries.symm) ?_
  exact htarget.within henv.inScope hcontext.inScope (hcontext.inScope.of_entries hentries.symm)
    (within_of_entries hentries.symm)

end Case

end Elaborator.Elimination

end ProofAssistant
