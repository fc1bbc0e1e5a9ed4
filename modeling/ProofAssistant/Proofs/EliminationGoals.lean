import ProofAssistant.Proofs.Dependence
import ProofAssistant.Proofs.DistinctGoals
import ProofAssistant.Proofs.TelescopeInstances
import ProofAssistant.Proofs.UnificationScope

/-!
# The goals of case analysis and induction

Case analysis and induction take a hypothesis apart by the recursor of its type. The hypotheses of the goal are of
three kinds: the one taken apart (the major premise), those that depend on it, and those that are kept.
`Elimination.Arranged` lists them in this order, in which each still mentions only hypotheses before it.
-/

namespace ProofAssistant

open List Scope ElabM Local

variable {k : Nat} {m : Term}
variable {S : Scope} {Γ : Context} {name : Name} {level l : Level} {levels : List Level} {new : List Goal}
  {minors : List Term}

/-! ## Goals without holes -/

lemma Term.resolveHoles_of_in (hS : ∀ h, ¬ S.hole h) (hm : m.In S k) (value : Id → Option Term)
    (depth : Nat) : m.resolveHoles value depth = m := by
  cases depth with
  | zero => rfl
  | succ depth => exact fillHolesApp_eq_apply hm (fun h hh => absurd hh (hS h)) []

/-- What is known of a term without holes is known of its levels. -/
lemma Metas.instantiate_of_in (hS : ∀ h, ¬ S.hole h) (hm : m.In S k) (μ : Metas) :
    μ.instantiate m = m.mapLevels μ.instantiateLevel := by
  rw [instantiate_eq_mapLevels, Term.resolveHoles_of_in hS hm]

lemma Scope.pushAll_hole (S : Scope) (xs : List Local) : (S.pushAll xs).hole = S.hole := by
  rw [pushAll_eq]

lemma Scope.ground_pushAll_hole (xs : List Local) (h : Id) : ¬ (ground.pushAll xs).hole h := by
  rw [pushAll_hole]
  exact fun hh => hh

lemma Scope.ground_le (xs : List Local) : ground.Le (ground.pushAll xs) :=
  le_pushAll _ _

lemma Term.In.mapLevels_ground {xs : List Local} (hm : m.In (Scope.ground.pushAll xs) k) (f : Level → Level) :
    (m.mapLevels f).In (Scope.ground.pushAll xs) k := by
  rw [pushAll_eq] at hm ⊢
  exact hm.mapLevels_free_hole f

namespace Goal

/-- The goal has no holes, and its hypotheses are distinct, with numbers below `next`, each after those it mentions. -/
structure Ground (next : Nat) (g : Goal) : Prop where
  fresh : Local.Between 0 next g.context.locals
  context : Local.AllIn .ground g.context.locals
  target : g.target.In (Scope.ground.pushAll g.context.locals) 0

lemma ids_known (μ : Metas) (g : Goal) : (g.known μ).context.locals.map Local.id = g.context.locals.map Local.id := by
  rw [known, map_map]
  rfl

lemma Ground.known {next : Nat} {g : Goal} (hg : g.Ground next) (μ : Metas) : (g.known μ).Ground next where
  fresh := hg.fresh.of_ids (g.ids_known μ)
  context := by
    have hknown (older xs : List Local) (hxs : Local.AllIn (Scope.ground.pushAll older) xs) :
        Local.AllIn (Scope.ground.pushAll older) (xs.map fun h => { h with type := μ.instantiate h.type }) := by
      induction xs generalizing older with
      | nil => trivial
      | cons x xs ih =>
        refine ⟨?_, ?_⟩
        · show (μ.instantiate x.type).In _ 0
          rw [Metas.instantiate_of_in (ground_pushAll_hole older) hxs.1]
          exact hxs.1.mapLevels_ground _
        · have hxs' := hxs.2
          rw [show (Scope.ground.pushAll older).push x.id = Scope.ground.pushAll (older ++ [x]) from
            (pushAll_append _ older [x]).symm] at hxs'
          have h := ih (older ++ [x]) hxs'
          rwa [pushAll_append] at h
    exact hknown [] g.context.locals hg.context
  target := by
    have htarget : (μ.instantiate g.target).In (Scope.ground.pushAll g.context.locals) 0 := by
      rw [Metas.instantiate_of_in (ground_pushAll_hole _) hg.target]
      exact hg.target.mapLevels_ground _
    rwa [← pushAll_of_ids _ (g.ids_known μ)] at htarget

end Goal

/-! ## What is kept and what depends -/

namespace Elaborator.Elimination

variable {e : Elimination}

/-- The hypotheses of the goal before the major premise and after it, among which the dependents are found. -/
structure Splits (e : Elimination) (before after : List Local) : Prop where
  locals : e.goal.context.locals = before ++ e.major :: after
  dependents : e.dependents = Elaborator.dependents [e.major.id] after

/-- The hypotheses in another order, each still after those it mentions: those kept, the major premise, its dependents.
-/
structure Arranged (e : Elimination) (next : Nat) : Prop where
  fresh : Local.Between 0 next (e.kept.locals ++ e.major :: e.dependents)
  kept_in : Local.AllIn .ground e.kept.locals
  major_in : e.major.type.In (Scope.ground.pushAll e.kept.locals) 0
  dependents_in : Local.AllIn ((Scope.ground.pushAll e.kept.locals).push e.major.id) e.dependents
  target_in : e.goal.target.In (((Scope.ground.pushAll e.kept.locals).push e.major.id).pushAll e.dependents) 0

section Splits

variable {before after : List Local} {next : Nat}
variable {y : Local}

lemma Splits.nodup (h : e.Splits before after) (hg : e.goal.Ground next) :
    ((before ++ e.major :: after).map Local.id).Nodup :=
  h.locals ▸ hg.fresh.nodup

lemma Splits.dependents_sublist (h : e.Splits before after) : e.dependents.Sublist e.goal.context.locals := by
  rw [h.dependents, h.locals]
  exact ((Elaborator.dependents_sublist _ _).trans (List.sublist_cons_self _ _)).trans (List.sublist_append_right _ _)

lemma Splits.mem_dependents_iff (h : e.Splits before after) (hg : e.goal.Ground next) :
    y ∈ e.dependents ↔ e.goal.context.DependsOn e.major.id y := by
  have hcontext : e.goal.context = ⟨before ++ e.major :: after⟩ := congrArg Context.mk h.locals
  have hin := hg.context
  rw [h.locals] at hin
  rw [h.dependents, hcontext]
  exact Elaborator.mem_dependents_iff (fun _ hy => hy) hin (h.nodup hg)

lemma kept_sublist (e : Elimination) : e.kept.locals.Sublist e.goal.context.locals :=
  filter_sublist

lemma mem_kept_iff : y ∈ e.kept.locals ↔
    y ∈ e.goal.context.locals ∧ y.id ≠ e.major.id ∧ y.id ∉ e.dependents.map Local.id := by
  simp only [kept, mem_filter, Bool.not_eq_true', contains_eq_mem, decide_eq_false_iff_not, mem_cons, not_or]

section

variable (h : e.Splits before after)
include h

/-- Of the hypotheses, those are kept that are not the major premise and do not depend on it. -/
lemma Splits.mem_kept_iff (hg : e.goal.Ground next) (hy : y ∈ e.goal.context.locals) :
    y ∈ e.kept.locals ↔ y ≠ e.major ∧ ¬ e.goal.context.DependsOn e.major.id y := by
  have hnodup := hg.fresh.nodup
  have hmajor : e.major ∈ e.goal.context.locals := by
    rw [h.locals]
    exact mem_append_right _ mem_cons_self
  have hids : y.id ∈ e.dependents.map Local.id ↔ y ∈ e.dependents := by
    refine ⟨fun hmem => ?_, mem_map_of_mem⟩
    obtain ⟨z, hz, hzy⟩ := mem_map.mp hmem
    rwa [← inj_on_of_nodup_map hnodup (h.dependents_sublist.subset hz) hy hzy]
  rw [Elimination.mem_kept_iff, hids, h.mem_dependents_iff hg]
  refine ⟨fun ⟨_, hne, hdep⟩ => ⟨fun heq => hne (heq ▸ Eq.refl _), hdep⟩, fun ⟨hne, hdep⟩ => ⟨hy, fun heq => ?_, hdep⟩⟩
  exact hne (inj_on_of_nodup_map hnodup hy hmajor heq)

lemma Splits.major_mem : e.major ∈ e.goal.context.locals := by
  rw [h.locals]
  exact mem_append_right _ mem_cons_self

lemma Splits.not_dependsOn_self (hg : e.goal.Ground next) :
    ¬ e.goal.context.DependsOn e.major.id e.major := by
  intro hself
  have hmem := (Elaborator.dependents_sublist _ _).subset (h.dependents ▸ (h.mem_dependents_iff hg).mpr hself)
  have hnodup := h.nodup hg
  rw [List.map_append] at hnodup
  exact (List.nodup_cons.mp (List.nodup_append.mp hnodup).2.1).1 (List.mem_map_of_mem hmem)

lemma Splits.kinds (hg : e.goal.Ground next) (hy : y ∈ e.goal.context.locals) :
    y ∈ e.kept.locals ∨ y = e.major ∨ y ∈ e.dependents := by
  by_cases hyx : y = e.major
  · exact .inr (.inl hyx)
  · by_cases hdep : e.goal.context.DependsOn e.major.id y
    · exact .inr (.inr ((h.mem_dependents_iff hg).mpr hdep))
    · exact .inl ((h.mem_kept_iff hg hy).mpr ⟨hyx, hdep⟩)

lemma Splits.fresh (hg : e.goal.Ground next) :
    Local.Between 0 next (e.kept.locals ++ e.major :: e.dependents) where
  le := Nat.zero_le next
  nodup := by
    have hnodup := hg.fresh.nodup
    rw [map_append, map_cons, nodup_append, nodup_cons]
    refine ⟨hnodup.sublist (e.kept_sublist.map _), ⟨?_, hnodup.sublist (h.dependents_sublist.map _)⟩, ?_⟩
    · intro hmem
      obtain ⟨z, hz, hzx⟩ := mem_map.mp hmem
      rw [inj_on_of_nodup_map hnodup (h.dependents_sublist.subset hz) h.major_mem hzx] at hz
      exact h.not_dependsOn_self hg ((h.mem_dependents_iff hg).mp hz)
    · intro i hi j hj hij
      obtain ⟨y, hy, rfl⟩ := mem_map.mp hi
      obtain ⟨-, hyx, hyd⟩ := Elimination.mem_kept_iff.mp hy
      rcases mem_cons.mp hj with hj | hj
      · exact hyx (hij.trans hj)
      · exact hyd (hij ▸ hj)
  number y hy := by
    refine hg.fresh.number y ?_
    rcases mem_append.mp hy with hy | hy
    · exact e.kept_sublist.subset hy
    · rcases mem_cons.mp hy with rfl | hy
      · exact h.major_mem
      · exact h.dependents_sublist.subset hy

/-- What mentions the major premise or a dependent is a dependent, so what is kept mentions neither. -/
lemma Splits.kept_in (hg : e.goal.Ground next) : Local.AllIn .ground e.kept.locals := by
  refine hg.context.sublist { free := fun _ hy => hy.elim } e.kept_sublist (.of_map _ hg.fresh.nodup)
    (fun _ _ _ hz => hz.elim) fun y hy z hz hzy hocc => ?_
  have hyl := e.kept_sublist.subset hy
  refine absurd ?_ ((h.mem_kept_iff hg hyl).mp hy).2
  rcases h.kinds hg hz with hz | rfl | hz
  · exact absurd hz hzy
  · exact .direct hyl hocc
  · exact .through hyl hocc ((h.mem_dependents_iff hg).mp hz)

lemma Splits.dependents_in (hg : e.goal.Ground next) :
    Local.AllIn ((Scope.ground.pushAll e.kept.locals).push e.major.id) e.dependents := by
  have hle : Scope.Le { Scope.ground with free := fun _ => False }
      ((Scope.ground.pushAll e.kept.locals).push e.major.id) := by
    rw [pushAll_eq]
    exact { free := fun _ hy => hy.elim }
  refine hg.context.sublist hle h.dependents_sublist (.of_map _ hg.fresh.nodup) (fun _ _ _ hz => hz.elim)
    fun y hy z hz hzy hocc => ?_
  rcases h.kinds hg hz with hz | rfl | hz
  · exact .inl ((pushAll_free _ _ _).mpr (.inr (mem_map_of_mem hz)))
  · exact .inr (Eq.refl _)
  · exact absurd hz hzy

lemma Splits.major_in (hg : e.goal.Ground next) :
    e.major.type.In (Scope.ground.pushAll e.kept.locals) 0 := by
  have hcontext := hg.context
  rw [h.locals] at hcontext
  obtain ⟨-, hmajor, -⟩ := Local.allIn_append.mp hcontext
  refine hmajor.widen ?_
  rw [Scope.pushAll_eq, Scope.pushAll_eq]
  refine { free := fun i hi => hi.imp_right fun hi => ?_ }
  obtain ⟨y, hy, rfl⟩ := List.mem_map.mp hi
  have hyl : y ∈ e.goal.context.locals := h.locals ▸ List.mem_append_left _ hy
  have hnodup := h.nodup hg
  rw [List.map_append, List.nodup_append] at hnodup
  -- a hypothesis before the major premise is neither the premise nor a dependent
  rcases h.kinds hg hyl with hy' | hy' | hy'
  · exact List.mem_map_of_mem hy'
  · exact absurd (congrArg Local.id hy') (hnodup.2.2 _ (List.mem_map_of_mem hy) _ (by simp))
  · have hafter := (Elaborator.dependents_sublist _ _).subset (h.dependents ▸ hy')
    exact absurd (Eq.refl _) (hnodup.2.2 y.id (List.mem_map_of_mem hy) y.id
      (List.mem_cons_of_mem _ (List.mem_map_of_mem hafter)))

lemma Splits.target_in (hg : e.goal.Ground next) :
    e.goal.target.In (((Scope.ground.pushAll e.kept.locals).push e.major.id).pushAll e.dependents) 0 := by
  refine hg.target.widen ?_
  rw [pushAll_eq, pushAll_eq, pushAll_eq]
  refine { free := fun i hi => ?_ }
  rcases hi with hi | hi
  · exact hi.elim
  · obtain ⟨y, hy, rfl⟩ := mem_map.mp hi
    rcases h.kinds hg hy with hy | rfl | hy
    · exact .inl (.inl (.inr (mem_map_of_mem hy)))
    · exact .inl (.inr (Eq.refl _))
    · exact .inr (mem_map_of_mem hy)

lemma Splits.arranged (hg : e.goal.Ground next) : e.Arranged next :=
  ⟨h.fresh hg, h.kept_in hg, h.major_in hg, h.dependents_in hg, h.target_in hg⟩

end

lemma Arranged.statement_in (h : e.Arranged next) :
    e.statement.In ((Scope.ground.pushAll e.kept.locals).push e.major.id) 0 :=
  .pis h.dependents_in h.target_in

lemma Arranged.dependents_nodup (h : e.Arranged next) :
    (e.dependents.map Local.id).Nodup ∧ e.major.id ∉ e.dependents.map Local.id := by
  have hnodup := h.fresh.nodup
  rw [map_append, map_cons, nodup_append, nodup_cons] at hnodup
  exact ⟨hnodup.2.1.2, hnodup.2.1.1⟩

lemma Arranged.dependents_fresh (h : e.Arranged next) :
    ∀ y ∈ e.dependents, ¬ ((Scope.ground.pushAll e.kept.locals).push e.major.id).free y.id := by
  have hnodup := h.fresh.nodup
  rw [map_append, nodup_append] at hnodup
  rintro y hy (hfree | hmajor)
  · rcases (pushAll_free _ _ _).mp hfree with hfree | hfree
    · exact hfree.elim
    · exact hnodup.2.2 _ hfree _ (mem_cons_of_mem _ (mem_map_of_mem hy)) (Eq.refl _)
  · exact h.dependents_nodup.2 (hmajor ▸ mem_map_of_mem hy)

end Splits

end Elaborator.Elimination

/-! ## The goal of a constructor -/

/-- The new hypotheses in a goal, with the induction hypotheses or without. -/
def CaseHypotheses.shown (h : CaseHypotheses) (induction : Bool) : List Local :=
  h.fields ++ (if induction then h.ihs else []) ++ h.copies

lemma CaseHypotheses.shown_sublist (h : CaseHypotheses) (induction : Bool) :
    (h.shown induction).Sublist h.telescope := by
  refine (List.Sublist.append (List.Sublist.refl _) ?_).append (List.Sublist.refl _)
  split
  · exact List.Sublist.refl _
  · exact nil_sublist _

namespace Elaborator

variable {e : Elimination} {env : Env} {T : FamilyInstance} {i next : Nat} {k : Constructor} {h : CaseHypotheses}
  {g : Goal} {minor : Term} {names : List Name} {rest goals : List Goal} {X Y : Situation} {E : Elaborator}

namespace Elimination

/-- The goal is that of the `i`-th constructor, with the new hypotheses `h`, and `minor` is its place in the
recursor. -/
structure Case (e : Elimination) (env : Env) (T : FamilyInstance) (i : Nat) (k : Constructor) (n : Nat)
    (h : CaseHypotheses) (g : Goal) (minor : Term) : Prop where
  hypotheses : h.Of env (Scope.ground.pushAll e.kept.locals) T i k e.major e.dependents e.statement n g.id.number
  context : g.context = e.kept.pushAll (h.shown e.induction)
  target : g.target = e.goal.target.subst (h.values T i k e.major e.dependents)
  minor_eq : minor = g.hole.abs h.telescope

lemma Case.weaken {n n' : Nat} (hcase : e.Case env T i k n' h g minor) (hn : n ≤ n') : e.Case env T i k n h g minor :=
  { hcase with
    hypotheses := { hcase.hypotheses with between := hcase.hypotheses.between.weaken hn (Nat.le_refl _) } }

end Elimination

section Cases

variable {E : Elaborator} {e : Elimination} {T : FamilyInstance} {next : Nat}

lemma case_of_ends (henv : Env.Reachable E.env) (he : e.Arranged next)
    (hT : T.Known E.env (Scope.ground.pushAll e.kept.locals)) (hk : k ∈ T.family.ctors) {r : Goal × Term × List Name}
    {s s' : Supply} (h : (E.eliminateCase e T i k names).Ends s r s') :
    ∃ hs, e.Case E.env T i k s.next hs r.1 r.2.1 := by
  obtain ⟨type, s₁, htype, h⟩ := h.bind
  obtain ⟨⟨fields, names₁⟩, s₂, hfields, h⟩ := h.bind
  obtain ⟨⟨ihs, left⟩, s₃, hihs, h⟩ := h.bind
  obtain ⟨⟨copies, values⟩, s₄, hcopies, h⟩ := h.bind
  obtain ⟨g, s₅, hdeclare, h⟩ := h.bind
  obtain ⟨rfl, rfl⟩ := h.pure
  obtain ⟨hsome, rfl⟩ := FreshM.ends_ofOption.mp htype
  obtain ⟨hof, rfl⟩ := caseHypotheses_of_ends henv (ground_le _) hT hk he.dependents_in he.dependents_nodup.1
    he.dependents_fresh he.statement_in hsome hfields hihs hcopies
  obtain ⟨rfl, -⟩ := Prod.mk.inj (FreshM.ends_modifyGet.mp hdeclare)
  exact ⟨⟨fields, ihs, copies⟩, hof, Eq.refl _, Eq.refl _, Eq.refl _⟩

lemma cases_of_ends (henv : Env.Reachable E.env) (he : e.Arranged next)
    (hT : T.Known E.env (Scope.ground.pushAll e.kept.locals)) {index : Nat} {ks : List Constructor}
    (hks : ∀ k ∈ ks, k ∈ T.family.ctors) {r : List Goal × List Term} {s s' : Supply} (hnext : next ≤ s.next)
    (h : (E.eliminateCases e T index names ks).Ends s r s') :
    r.1.length = ks.length ∧ r.2.length = ks.length ∧ ∀ j k, ks[j]? = some k →
      ∃ hs g minor, r.1[j]? = some g ∧ r.2[j]? = some minor ∧ e.Case E.env T (index + j) k next hs g minor := by
  induction ks generalizing index names r s with
  | nil =>
    obtain ⟨rfl, rfl⟩ := h.pure
    exact ⟨Eq.refl _, Eq.refl _, fun j k hk => by simp at hk⟩
  | cons k ks ih =>
    obtain ⟨⟨g, minor, names⟩, s₁, hcase, h⟩ := h.bind
    obtain ⟨⟨gs, minors⟩, s₂, hcases, h⟩ := h.bind
    obtain ⟨rfl, rfl⟩ := h.pure
    obtain ⟨hk, hks⟩ := forall_mem_cons.mp hks
    have hs₁ := (between_of_eliminateCase hcase).1
    obtain ⟨hs, hcase⟩ := case_of_ends henv he hT hk hcase
    obtain ⟨hgs, hminors, hcases⟩ := ih hks (hnext.trans hs₁) hcases
    refine ⟨congrArg (· + 1) hgs, congrArg (· + 1) hminors, fun j k' hk' => ?_⟩
    cases j with
    | zero =>
      obtain rfl := Option.some.inj hk'
      exact ⟨hs, g, minor, Eq.refl _, Eq.refl _, hcase.weaken hnext⟩
    | succ j =>
      obtain ⟨hs', g', minor', hg', hminor', hcase'⟩ := hcases j k' hk'
      rw [Nat.add_right_comm] at hcase'
      exact ⟨hs', g', minor', hg', hminor', hcase'⟩

end Cases

lemma Elimination.Case.entries (hcase : e.Case env T i k next h g minor) :
    g.context.locals.map entry = (e.kept.locals ++ h.shown e.induction).map entry := by
  rw [hcase.context, Context.entries_pushAll]

lemma Elimination.Case.not_mem_kept (he : e.Arranged next) (hcase : e.Case env T i k next h g minor) :
    ∀ y ∈ h.telescope, y.id ∉ e.kept.ids := by
  intro y hy hmem
  obtain ⟨z, hz, hzy⟩ := mem_map.mp hmem
  have hold := (he.fresh.number z (mem_append_left _ hz)).2
  have hnew := (hcase.hypotheses.between.number y hy).1
  rw [hzy] at hold
  omega

lemma Elimination.Case.shown_in (hcase : e.Case env T i k next h g minor) (induction : Bool) :
    Local.AllIn (Scope.ground.pushAll e.kept.locals) (h.shown induction) := by
  rw [CaseHypotheses.shown, append_assoc]
  refine allIn_append.mpr
    ⟨hcase.hypotheses.fields_in, Local.AllIn.append_right ?_ hcase.hypotheses.copies_in⟩
  split
  · exact hcase.hypotheses.ihs_in
  · trivial

/-- The goal of a case has no holes, and its hypotheses and target mention only hypotheses before. -/
lemma Elimination.Case.ground (he : e.Arranged next) (hT : T.Known env (Scope.ground.pushAll e.kept.locals))
    (hcase : e.Case env T i k next h g minor) : g.Ground g.id.number := by
  have hof := hcase.hypotheses
  have hentries := hcase.entries
  have hids := ids_of_entries hentries
  have hin := hcase.shown_in e.induction
  refine ⟨?_, ?_, ?_⟩
  · have hkept : Local.Between 0 next e.kept.locals := he.fresh.sublist (sublist_append_left _ _)
    exact (hkept.append (hof.between.sublist (h.shown_sublist _))).of_ids hids
  · exact (allIn_append.mpr ⟨he.kept_in, hin⟩).of_entries hentries
  · rw [hcase.target, pushAll_of_ids _ hids, pushAll_append]
    have hmem {y : Local} (hy : y ∈ h.fields ∨ y ∈ h.copies) :
        y.term.In ((Scope.ground.pushAll e.kept.locals).pushAll (h.shown e.induction)) 0 := by
      refine Term.in_pushAll_term ?_
      rw [CaseHypotheses.shown, append_assoc]
      rcases hy with hy | hy
      · exact mem_append_left _ hy
      · exact mem_append_right _ (mem_append_right _ hy)
    refine he.target_in.subst ?_ ?_ ?_
    · rw [pushAll_eq, pushAll_eq, pushAll_eq]
      exact { free := fun _ hy => hy.elim }
    · intro p hp
      rcases mem_cons.mp hp with rfl | hp
      · exact hT.construct_in (ground_le _) (le_pushAll _ _) (fun y hy => hmem (.inl hy)) i k
      · obtain ⟨y, hy, hyp⟩ := mem_map.mp (of_mem_zip hp).2
        exact hyp ▸ hmem (.inr hy)
    · -- what is not in the new goal has a value
      intro y hy hnone
      rw [CaseHypotheses.values, lookup_cons_eq_ite] at hnone
      split at hnone
      · simp at hnone
      · rename_i hyx
        rcases (pushAll_free _ _ _).mp hy with (hy | hy) | hy
        · exact (le_pushAll _ _).free y hy
        · exact absurd hy hyx
        · have hlen := congrArg List.length hof.copies_names
          exact absurd hnone (lookup_zip_ne_none (by simpa using hlen.ge) hy)

/-! ## Runs -/

/-- What case analysis or induction does to the goal, in front of the goals `rest`. -/
structure Elimination.Run (e : Elimination) (E : Elaborator) (names : List Name) (rest : List Goal) (X : Situation)
    (T : FamilyInstance) (level : Level) (levels : List Level) (new : List Goal) (minors : List Term)
    (goals : List Goal) (Y : Situation) : Prop where
  family : E.env.familyOf? X.metas E.fuel e.major.type = some (some T)
  sort : (E.env.sortOf X.supply X.metas E.fuel X.supply.next e.goal.context e.statement).Yields level
  recursor : T.recursorLevels? (X.metas.instantiateLevel level) = some levels
  cases : (E.eliminateCases e T 0 names T.family.ctors).Ends X.supply (new, minors) Y.supply
  solved : Y.metas = X.metas.assignGoal e.goal (T.eliminate levels (e.statement.abs [e.major]) minors e.major.term
    (e.dependents.map Local.term))
  goals_eq : goals = (new ++ rest).filter (!Y.metas.isAssigned ·.id)

lemma ends_familyOf? {type : Term} {T : Option FamilyInstance} :
    (E.familyOf? type).Ends X T Y ↔ E.env.familyOf? X.metas E.fuel type = some T ∧ X = Y := by
  simp only [familyOf?, ends_bind, ends_get, ends_lift, FreshM.ends_ofOption]
  constructor
  · cases Y
    rintro ⟨_, _, ⟨rfl, rfl⟩, ⟨hfamily, rfl⟩, rfl⟩
    exact ⟨hfamily, Eq.refl _⟩
  · rintro ⟨hfamily, rfl⟩
    exact ⟨_, _, ⟨Eq.refl _, Eq.refl _⟩, ⟨hfamily, Eq.refl _⟩, Eq.refl _⟩

lemma ends_sortOf : (E.sortOf Γ m).Ends X l Y ↔
      (E.env.sortOf X.supply X.metas E.fuel X.supply.next Γ m).Yields l ∧ X = Y := by
  simp only [sortOf, ends_bind, ends_get, ends_getSupply, ends_lift, FreshM.ends_ofElaboration]
  constructor
  · cases Y
    rintro ⟨_, _, ⟨rfl, rfl⟩, _, _, ⟨rfl, rfl⟩, ⟨hlevel, rfl⟩, rfl⟩
    exact ⟨hlevel, Eq.refl _⟩
  · rintro ⟨hlevel, rfl⟩
    exact ⟨_, _, ⟨Eq.refl _, Eq.refl _⟩, _, _, ⟨Eq.refl _, Eq.refl _⟩, ⟨hlevel, Eq.refl _⟩, Eq.refl _⟩

lemma splits_of_find? (hnodup : (Γ.locals.map Local.id).Nodup) {x : Local}
    (hfind : Γ.find? name = some x) {position : Nat} (hposition : Γ.position? x.id = some position) :
    Γ.locals = Γ.locals.take position ++ x :: Γ.locals.drop (position + 1) := by
  obtain ⟨hlt, hid, -⟩ := findIdx?_eq_some_iff_getElem.mp hposition
  have hx : x ∈ Γ.locals := mem_reverse.mp (mem_of_find?_eq_some hfind)
  have hget : Γ.locals[position] = x :=
    inj_on_of_nodup_map hnodup (getElem_mem hlt) hx (beq_iff_eq.mp hid)
  rw [← hget, ← drop_eq_getElem_cons hlt, take_append_drop]

lemma of_ends_eliminate {induction : Bool} (hnodup : (g.context.locals.map Local.id).Nodup)
    (h : (E.eliminate induction name names (g :: rest)).Ends X goals Y) :
    ∃ (e : Elimination) (before after : List Local) (T : FamilyInstance) (level : Level) (levels : List Level)
      (new : List Goal) (minors : List Term), e.goal = g.known X.metas ∧ e.induction = induction ∧
      e.goal.context.find? name = some e.major ∧ e.Splits before after ∧
      e.Run E names rest X T level levels new minors goals Y := by
  obtain ⟨_, _, hmain, h⟩ := h.bind
  obtain ⟨rfl, rfl⟩ := ends_mainGoal.mp hmain
  dsimp only at h
  split at h
  · rename_i x hfind
    obtain ⟨T, X₁, hfamily, h⟩ := h.bind
    obtain ⟨hT, rfl⟩ := ends_familyOf?.mp hfamily
    cases T with
    | none => exact absurd h ElabM.not_ends_throw
    | some T =>
      dsimp only at h
      split at h
      · rename_i position hposition
        obtain ⟨μ, _, hget, h⟩ := h.bind
        obtain ⟨rfl, rfl⟩ := ElabM.ends_get.mp hget
        obtain ⟨level, _, hlevel, h⟩ := h.bind
        obtain ⟨hsort, rfl⟩ := ends_sortOf.mp hlevel
        split at h
        · rename_i levels hlevels
          obtain ⟨⟨new, minors⟩, X₂, hcases, h⟩ := h.bind
          obtain ⟨hnew, hmetas⟩ := ElabM.ends_lift.mp hcases
          simp only [ElabM.ends_bind, ElabM.ends_modify, ends_prune] at h
          obtain ⟨_, _, rfl, rfl, rfl⟩ := h
          have hids : (((g.known X.metas).context.locals).map Local.id).Nodup := g.ids_known X.metas ▸ hnodup
          refine ⟨⟨g.known X.metas, x, _, induction⟩, _, _, T, level, levels, new, minors, Eq.refl _, Eq.refl _,
            hfind, ⟨splits_of_find? hids hfind hposition, Eq.refl _⟩, hT, hsort, hlevels, hnew, ?_, Eq.refl _⟩
          rw [hmetas]
        · exact absurd h ElabM.not_ends_throw
      · exact absurd h ElabM.not_ends_throw
  · exact absurd h ElabM.not_ends_throw

/-! ## The shape of the goals -/

/-- The goal for the `i`-th constructor, in terms of the goal that is taken apart. -/
structure Elimination.Shape (e : Elimination) (env : Env) (T : FamilyInstance) (i : Nat) (k : Constructor)
    (h : CaseHypotheses) (g : Goal) : Prop where
  /-- The type of the constructor on the parameters is a product over the fields. -/
  product : ∃ type rest : Term,
    env.Specializes T.params (k.type.instantiateLevelParams T.family.levelParams T.levels) type ∧
      type.alphaEq (rest.pis h.fields)
  fields_length : h.fields.length = k.numFields
  /-- There is an induction hypothesis for each recursive field. -/
  ihs_types : h.ihs.map Local.type =
    (k.recursiveFields h.fields).map fun y => (e.goal.target.pis e.dependents).subst [(e.major.id, y.term)]
  copies_types : h.copies.map Local.type =
    e.dependents.map fun y => y.type.subst (h.values T i k e.major e.dependents)
  context : g.context.locals.map entry =
    (e.kept.locals ++ (h.fields ++ (if e.induction then h.ihs else []) ++ h.copies)).map entry
  target : g.target = e.goal.target.subst (h.values T i k e.major e.dependents)
  ground : g.Ground g.id.number

lemma Elimination.Case.shape (he : e.Arranged next) (hT : T.Known env (Scope.ground.pushAll e.kept.locals))
    (hcase : e.Case env T i k next h g minor) : e.Shape env T i k h g where
  product := by
    obtain ⟨type, rest, hspecial, htype, hopened⟩ := hcase.hypotheses.product
    have hsublist : h.fields.Sublist h.telescope :=
      (sublist_append_left _ _).trans (sublist_append_left _ _)
    have hnodup := (hcase.hypotheses.between.sublist hsublist).nodup
    refine ⟨type, rest, hspecial, (hopened.alphaEq_pis htype hnodup fun y hy hfree => ?_).1⟩
    rcases (pushAll_free _ _ _).mp hfree with hfree | hfree
    · exact hfree
    · exact hcase.not_mem_kept he y (hsublist.subset hy) hfree
  fields_length := hcase.hypotheses.fields_length
  ihs_types := hcase.hypotheses.ihs_types
  copies_types := hcase.hypotheses.copies_types
  context := hcase.entries
  target := hcase.target
  ground := hcase.ground he hT

/-- The type of the major premise is known where the hypotheses are that are kept. -/
lemma Elimination.Run.known (he : e.Arranged next) (henv : Env.Reachable E.env)

    (h : e.Run E names rest X T level levels new minors goals Y) :
    T.Known E.env (Scope.ground.pushAll e.kept.locals) := by
  refine Env.known_of_familyOf? ((Env.scoped_of_reachable henv).admits_of_ground_le (ground_le _)) ?_ h.family
  rw [Metas.instantiate_of_in (ground_pushAll_hole _) he.major_in]
  exact he.major_in.mapLevels_ground _

/-- The goals that are left are the new ones and those of the others that are not the goal taken apart. -/
lemma Elimination.Run.goals_append
    (h : e.Run E names rest X T level levels new minors goals Y) (hopen : ∀ g ∈ rest, X.metas.isAssigned g.id = false)
    (hnumber : e.goal.id.number < X.supply.next)
    (hassigned : ∀ z, X.metas.isAssigned z = true → z.number < X.supply.next) :
    goals = new ++ rest.filter (·.id ≠ e.goal.id) := by
  have hY (z : Id) : Y.metas.isAssigned z = (z == e.goal.id || X.metas.isAssigned z) := by
    rw [h.solved, Metas.assignGoal, Metas.isAssigned_assign]
  have hnew : ∀ g ∈ new, Y.metas.isAssigned g.id = false := by
    intro g hg
    have hle := ((between_of_eliminateCases h.cases).2.number g.id (mem_map_of_mem hg)).1
    have hne : g.id ≠ e.goal.id := fun heq => by
      rw [heq] at hle
      omega
    have hold : X.metas.isAssigned g.id = false := by
      by_contra hold
      have hlt := hassigned g.id (by simpa using hold)
      omega
    rw [hY, hold, beq_eq_false_iff_ne.mpr hne]
    exact Eq.refl _
  rw [h.goals_eq, filter_append, filter_eq_self.mpr fun g hg => by rw [hnew g hg]; exact Eq.refl _]
  congr 1
  refine filter_congr fun g hg => ?_
  rw [hY, hopen g hg]
  simp [Bool.beq_eq_decide_eq]

/-- Case analysis or induction replaces the first goal by one for each constructor, in order; the others stay, except
that the first goal may be listed again, and is not then. Each new goal keeps the hypotheses that neither are `x` nor
depend on it. They are followed by the fields, the induction hypotheses and copies of the dependents; the target is the
old one at the constructor. -/
theorem eliminate_goals {E : Elaborator} (henv : Env.Reachable E.env) {X Y : Situation} {g : Goal}
    {rest goals : List Goal} (hground : g.Ground X.supply.next)
    (hopen : ∀ g' ∈ g :: rest, X.metas.isAssigned g'.id = false) (hnumber : g.id.number < X.supply.next)
    (hassigned : ∀ z, X.metas.isAssigned z = true → z.number < X.supply.next) {induction : Bool} {name : Name}
    {names : List Name} (hrun : (E.eliminate induction name names (g :: rest)).Ends X goals Y) :
    ∃ (e : Elimination) (T : FamilyInstance) (new : List Goal), e.goal = g.known X.metas ∧ e.induction = induction ∧
      e.goal.context.find? name = some e.major ∧
      E.env.Steps (X.metas.instantiate e.major.type) ((Term.const T.family.name T.levels).apply T.params) ∧
      E.env.inductive? T.family.name = some T.family ∧ T.params.length = T.family.numParams ∧
      e.dependents.Sublist e.goal.context.locals ∧ e.kept.locals.Sublist e.goal.context.locals ∧
      (∀ y ∈ e.goal.context.locals,
        (y ∈ e.dependents ↔ e.goal.context.DependsOn e.major.id y) ∧
        (y ∈ e.kept.locals ↔ y ≠ e.major ∧ ¬ e.goal.context.DependsOn e.major.id y)) ∧
      goals = new ++ rest.filter (·.id ≠ g.id) ∧ new.length = T.family.ctors.length ∧
      ∀ i k, T.family.ctors[i]? = some k → ∃ h g', new[i]? = some g' ∧ e.Shape E.env T i k h g' := by
  obtain ⟨e, before, after, T, level, levels, new, minors, hgoal, hinduction, hfind, hsplits, hrun⟩ :=
    of_ends_eliminate hground.fresh.nodup hrun
  have hg : e.goal.Ground X.supply.next := hgoal ▸ hground.known X.metas
  have he := hsplits.arranged hg
  have hT := hrun.known he henv
  have hid : e.goal.id = g.id := by
    rw [hgoal]
    exact Eq.refl _
  have hgoals := hrun.goals_append (fun g' hg' => hopen g' (List.mem_cons_of_mem g hg')) (hid ▸ hnumber) hassigned
  obtain ⟨hlen, -, hcases⟩ := cases_of_ends henv he hT (fun _ hk => hk) (Nat.le_refl _) hrun.cases
  refine ⟨e, T, new, hgoal, hinduction, hfind, (Env.steps_of_familyOf? hrun.family).1, hT.family, hT.params_length,
    hsplits.dependents_sublist, e.kept_sublist, fun y hy => ⟨hsplits.mem_dependents_iff hg, hsplits.mem_kept_iff hg hy⟩,
    hid ▸ hgoals, hlen, fun i k hk => ?_⟩
  obtain ⟨h, g', minor, hg', -, hcase⟩ := hcases i k hk
  rw [Nat.zero_add] at hcase
  exact ⟨h, g', hg', hcase.shape he hT⟩

end Elaborator

lemma ElabM.exists_ends_of_run {α β : Type} {x : ElabM α} {X : Situation} {f : α → β} {b : β}
    (h : (((x.run X.metas).run X.supply).run.bind Except.toOption).map (fun r => f r.1.1) = some b) :
    ∃ a Y, x.Ends X a Y ∧ f a = b := by
  obtain ⟨⟨a, μ⟩, s, hends, hf⟩ := FreshM.exists_ends_of_run (f := fun r : α × Metas => f r.1) h
  exact ⟨a, ⟨s, μ⟩, hends, hf⟩

namespace Goal

open Elaborator (Elimination)

/-- Induction on a number `n`, of which `h : P n` is known and `P n` is to be shown. -/
theorem induction_shape : ∃ (env : Env) (goals : List Goal) (Y : Situation),
    let E : Elaborator := { env := env, fuel := 12 }
    let P : Local := .new 0 ⟨"P"⟩ (.pi ⟨"n"⟩ false (.const ⟨"N"⟩ []) .prop)
    let n : Local := .new 1 ⟨"n"⟩ (.const ⟨"N"⟩ [])
    let h : Local := .new 2 ⟨"h"⟩ (P.term.app n.term)
    let g : Goal := ⟨⟨3, none⟩, ⟨[P, n, h]⟩, P.term.app n.term⟩
    Env.Reachable env ∧ g.Ground 4 ∧ (E.eliminate true ⟨"n"⟩ [] [g]).Ends ⟨⟨4, []⟩, {}⟩ goals Y ∧ goals.length = 2 ∧
      ∃ (e : Elimination) (T : FamilyInstance), e.goal = g ∧ e.major = n ∧ T.family.ctors.length = 2 ∧
        ∀ i k, T.family.ctors[i]? = some k → ∃ hs g', goals[i]? = some g' ∧ e.Shape env T i k hs g' := by
  let P : Local := .new 0 ⟨"P"⟩ (.pi ⟨"n"⟩ false (.const ⟨"N"⟩ []) .prop)
  let n : Local := .new 1 ⟨"n"⟩ (.const ⟨"N"⟩ [])
  let h : Local := .new 2 ⟨"h"⟩ (P.term.app n.term)
  let g : Goal := ⟨⟨3, none⟩, ⟨[P, n, h]⟩, P.term.app n.term⟩
  let X : Situation := ⟨⟨4, []⟩, {}⟩
  have hadd : ∃ env, (({} : Env).addInductive 20 0 Env.numbers).Yields env ∧
      ((((Elaborator.eliminate { env := env, fuel := 12 } true ⟨"n"⟩ [] [g]).run {}).run ⟨4, []⟩).run.bind
        Except.toOption).map (fun r => r.1.1.length) = some 2 :=
    ⟨_, rfl, by decide +kernel⟩
  obtain ⟨env, hN, hrun⟩ := hadd
  obtain ⟨goals, Y, hrun, hlen⟩ := ElabM.exists_ends_of_run (X := X) hrun
  have henv : Env.Reachable env := .single (.family Env.numbers_below hN)
  have hground : g.Ground 4 := by
    refine ⟨⟨by decide, by decide, by decide⟩, ⟨?_, ?_, ?_, trivial⟩, ?_⟩ <;>
      simp [g, P, n, h, Local.new, Local.term, Term.In, Term.prop, Scope.push, Scope.pushAll, Scope.ground]
  have hassigned : ∀ z, X.metas.isAssigned z = true → z.number < X.supply.next :=
    fun z hz => absurd hz Bool.false_ne_true
  obtain ⟨e, T, new, hgoal, -, hfind, -, -, -, -, -, -, rfl, hctors, hshape⟩ :=
    Elaborator.eliminate_goals henv hground (by decide) (by decide) hassigned hrun
  have hmajor : e.major = n := by
    rw [hgoal] at hfind
    exact (Option.some.inj hfind).symm
  rw [List.filter_nil, List.append_nil] at hrun hlen
  exact ⟨env, new, Y, henv, hground, hrun, hlen, e, T, hgoal, hmajor, hctors ▸ hlen, hshape⟩

/-- A type without constructors. -/
def impossible : InductiveSpec :=
  ⟨⟨"F"⟩, [], 0, .type, []⟩

/-- A goal that is listed twice is solved once, and both are gone: here by a case analysis without cases. -/
theorem repeated_dropped : ∃ (E : Elaborator) (X Y : Situation) (g : Goal) (goals : List Goal),
    Env.Reachable E.env ∧ g.Ground X.supply.next ∧ (∀ g' ∈ [g, g], X.metas.isAssigned g'.id = false) ∧
      g.id.number < X.supply.next ∧ (∀ z, X.metas.isAssigned z = true → z.number < X.supply.next) ∧
      (E.eliminate false ⟨"x"⟩ [] [g, g]).Ends X goals Y ∧ ¬ ∃ new : List Goal, goals = new ++ [g] := by
  let x : Local := .new 0 ⟨"x"⟩ (.const ⟨"F"⟩ [])
  let g : Goal := ⟨⟨1, none⟩, ⟨[x]⟩, .const ⟨"F"⟩ []⟩
  let X : Situation := ⟨⟨2, []⟩, {}⟩
  have hadd : ∃ env, (({} : Env).addInductive 20 0 impossible).Yields env ∧
      ((((Elaborator.eliminate { env := env, fuel := 12 } false ⟨"x"⟩ [] [g, g]).run {}).run ⟨2, []⟩).run.bind
        Except.toOption).map (fun r => r.1.1.length) = some 0 :=
    ⟨_, rfl, by decide +kernel⟩
  obtain ⟨env, hF, hrun⟩ := hadd
  obtain ⟨goals, Y, hrun, hlen⟩ := ElabM.exists_ends_of_run (X := X) hrun
  have hbelow : impossible.Below 0 := by
    simp [InductiveSpec.Below, impossible, Term.Below, Term.type, Term.In]
  have hground : g.Ground 2 := by
    refine ⟨⟨by decide, by decide, by decide⟩, ⟨trivial, trivial⟩, trivial⟩
  have hassigned : ∀ z, X.metas.isAssigned z = true → z.number < X.supply.next :=
    fun z hz => absurd hz Bool.false_ne_true
  refine ⟨{ env := env, fuel := 12 }, X, Y, g, goals, .single (.family hbelow hF), hground, by decide, by decide,
    hassigned, hrun, ?_⟩
  rintro ⟨new, rfl⟩
  simp at hlen

end Goal

end ProofAssistant
