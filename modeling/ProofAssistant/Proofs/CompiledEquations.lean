import ProofAssistant.Proofs.CompiledCases

/-!
# Equations of compiled clauses

A compiled function is defined by a recursor on the argument that its clauses match
(`Compiler.Job.definedBy_of_compileMatch`), so that the equation of each case computes.
-/

namespace ProofAssistant

open FreshM List Scope Term Local Env Replacement Nat

variable {env : Env} {x : Split} {levels : List Level} {minors : List Term} {t : InductiveType} {position : Nat}

open InductiveSpec

namespace Compiler

namespace Job

variable {J : Job} {n : Nat} {s s' : Supply}

/-! ## The equation of a case -/

namespace Case.Of

variable {c : Case} {x : Split} {T : FamilyInstance} {i : Nat} {k : Constructor}

lemma minor_in (hc : c.Of J x T n i k) : c.minor.In ((noFree.pushAll x.before).pushAll c.telescope) 0 := by
  have hfree : ∀ y, ((noFree.pushAll c.binders).push J.self.id).free y → y ≠ (c.calls J k).function →
      ((noFree.pushAll x.before).pushAll c.telescope).free y := by
    intro y hy hne
    rcases hy with hy | hy
    · rw [pushAll_free, pushAll_free]
      rcases (pushAll_free _ _ _).mp hy with hy | hy
      · exact hy.elim
      · simp only [Case.binders, Case.telescope, map_append, mem_append, hc.before_ids] at hy ⊢
        tauto
    · exact absurd hy hne
  have hin := hc.replaced.in_scope hc.rhs_in hfree fun y h hlookup => ?_
  · refine hin.widen ?_
    rw [pushAll_eq, pushAll_eq, pushAll_eq]
    exact {}
  · obtain ⟨z, hz, rfl⟩ := mem_map.mp (of_mem_zip (mem_of_lookup_eq_some hlookup)).2
    refine (pushAll_free _ _ _).mpr (.inr ?_)
    simp only [Case.telescope, map_append, mem_append]
    exact .inl (.inr (mem_map_of_mem hz))

lemma place_in (hc : c.Of J x T n i k) : (c.minor.abs c.telescope).In (noFree.pushAll x.before) 0 :=
  .abs hc.telescope_in hc.minor_in

lemma binders_nodup (hc : c.Of J x T n i k) (hJ : J.Opened n)
    (hargs : J.args = x.before ++ [x.major] ++ x.after) : ((J.self :: c.binders).map Local.id).Nodup := by
  obtain ⟨n', hbetween⟩ := hc.between
  have hold : Local.Between 0 n ([J.self] ++ c.before) := by
    have hsublist : ([J.self] ++ x.before).Sublist ([J.self] ++ J.args) := by
      rw [hargs, append_assoc]
      exact (sublist_append_left _ _).append_left _
    refine (hJ.between.sublist hsublist).of_ids ?_
    rw [map_append, map_append, hc.before_ids]
  have hnew : Local.Between n n' (c.fields ++ c.after) :=
    hbetween.sublist ((sublist_append_left _ _).append_right _)
  have hnodup := (hold.append hnew).nodup
  rwa [← append_assoc] at hnodup

/-- The equation of a case computes, if the function is defined by the recursor with the places of all cases. -/
lemma computes (hc : c.Of J x T n i k) (hJ : J.Opened n) (hargs : J.args = x.before ++ [x.major] ++ x.after)
    {motive : Term} (hdef : env.DefinedBy J.definition.name J.definition.constant
      ((const T.family.recursor levels).apply (T.params ++ [motive] ++ minors)) x.before x.major x.after)
    (hrec : env.recursorOf? T.family.recursor = some T.family) (hparams : T.params.length = T.family.numParams)
    (hlen : minors.length = T.family.ctors.length) (hminor : minors[i]? = some (c.minor.abs c.telescope)) :
    env.Computes J.definition.name c.equation.lhs c.equation.rhs := by
  obtain ⟨n', hbetween⟩ := hc.between
  have hbelow : ∀ y ∈ [J.self] ++ x.before, y.id.number < n := by
    intro y hy
    refine (hJ.between.number y ?_).2
    rw [hargs]
    simp only [mem_append] at hy ⊢
    tauto
  have hget : (T.params ++ [motive] ++ minors)[T.family.numParams + 1 + i]? = some (c.minor.abs c.telescope) := by
    rw [getElem?_append_right (by simp [hparams])]
    simpa [hparams] using hminor
  have hlength : (T.params ++ [motive] ++ minors).length = majorIndex T.family := by
    simp only [length_append, length_singleton, hparams, hlen, majorIndex]
  have hlhs : env.Computes J.definition.name (J.definition.constant.apply (x.before.map Local.term ++
      [T.construct i k (c.fields.map Local.term)] ++ c.after.map Local.term)) _ :=
    hdef.computes_minor rfl hrec hc.ctor hlength hparams hc.fields_length hc.ihs_length hget hc.telescope_in hc.minor_in
  have hself : J.self.id ∉ (x.before ++ c.fields ++ c.after).map Local.id := by
    have hnew : J.self.id ∉ c.telescope.map Local.id := hbetween.not_mem_ids (hbelow _ (by simp))
    have hold := hJ.self_not_mem
    rw [hargs] at hold
    simp only [Case.telescope, map_append, mem_append, not_or] at hnew hold ⊢
    exact ⟨⟨hold.1.1, hnew.1.1⟩, hnew.2⟩
  have hrhs_in := hc.rhs_in
  rw [Case.binders, append_assoc, pushAll_append, pushAll_of_ids noFree hc.before_ids,
    ← pushAll_append, ← append_assoc] at hrhs_in
  have hrhs := hdef.computes_rhs (c := c.calls J k) (terms_eq_of_ids hc.before_ids)
    (fun y hy => mem_of_mem_recursiveFields hy) hc.ihs_length rfl hbetween.nodup
    (fun y hy => hbetween.not_mem_ids (hbelow y (mem_append_right _ hy))) hself hc.replaced hrhs_in
  rw [hc.lhs, hc.rhs, terms_eq_of_ids hc.before_ids, subst_eq_replace (by simpa using hdef.closed)]
  exact hlhs.trans hrhs

end Case.Of

end Job

end Compiler

/-! ## The function in the environment -/

/-- The declaration of a compiled function. -/
def Compiled.decl (c : Compiled) (height : Nat) : Decl :=
  ⟨c.name, c.levelParams, c.type, .definition c.value height⟩

namespace Env

lemma admits_insert_definition (henv : env.Admits noFree) {c : Compiled} (hvalue : c.value.In noFree 0)
    (height : Nat) : (env.insert (c.decl height)).Admits noFree := by
  intro n ls d v h hget hkind hlen hn
  rw [get?_insert] at hget
  split at hget
  · obtain rfl := Option.some.inj hget
    obtain ⟨rfl, -⟩ := Decl.Kind.definition.inj hkind
    rw [instantiateLevelParams_eq_mapLevels]
    exact hvalue.mapLevels_of_freeOnly freeOnly_noFree _
  · exact henv n ls d v h hget hkind hlen hn

lemma computes_value (env : Env) (c : Compiled) (height : Nat) :
    (env.insert (c.decl height)).Computes c.name (.const c.name (c.levelParams.map .param)) c.value := by
  have hget : (env.insert (c.decl height)).get? c.name = some (c.decl height) := by
    rw [get?_insert]
    exact if_pos (beq_self_eq_true c.name)
  have hdelta : (env.insert (c.decl height)).Contracts (.const c.name (c.levelParams.map .param)) _ :=
    .delta hget rfl (by simp [Compiled.decl])
  have hown : c.value.instantiateLevelParams (c.decl height).levelParams (c.levelParams.map .param) = c.value :=
    instantiateLevelParams_own _ _
  rw [hown] at hdelta
  exact .contract hdelta fun _ _ he => (const.inj he).1.symm

lemma recursorOf?_insert_of_fresh {d : Decl} (hfresh : env.get? d.name = none) {c : Name}
    (h : env.recursorOf? c = some t) : (env.insert d).recursorOf? c = some t := by
  obtain ⟨d', n, hget, hkind, ht⟩ := recursorOf?_eq_some_iff.mp h
  exact recursorOf?_eq_some_iff.mpr ⟨d', n, get?_insert_of_fresh hfresh hget, hkind, ht⟩

end Env

namespace Compiler

namespace Job

variable {J : Job} {n : Nat} {s s' : Supply} {c : Compiled}

lemma supply_of_ctorOf {k : Nat} {p : Pattern} {r : Option Nat}
    (h : FreshM.Ends (J.ctorOf t k p) s r s') : s = s' := by
  unfold ctorOf at h
  split at h
  · split at h
    · split at h
      · split at h
        · exact (h.pure).2
        · exact absurd h not_ends_throw
      · exact absurd h not_ends_throw
    · exact absurd h not_ends_throw
  · exact (h.pure).2

lemma compileMatch_ends (hJ : J.Opened n) (hargs : J.args = x.before ++ [x.major] ++ x.after)
    (hn : n ≤ s.next) (h : FreshM.Ends (J.compileMatch position x) s c s') :
    ∃ (T : FamilyInstance) (levels : List Level) (cs : List Case),
      T.Known J.elaborator.env (noFree.pushAll x.before) ∧ cs.length = T.family.ctors.length ∧
      (∀ (i : Nat) (c : Case), cs[i]? = some c → ∃ k, c.Of J x T n i k) ∧
      c.value = (T.eliminate levels ((x.statement J).abs [x.major]) (cs.map fun c => c.minor.abs c.telescope)
        x.major.term (x.after.map Local.term)).abs J.args ∧
      List.Forall₂ (fun q c => q.type = c.equation.term.pis c.binders ∧ q.proof = c.equation.refl.abs c.binders)
        c.equations cs ∧ c.name = J.definition.name ∧ c.levelParams = J.definition.levelParams := by
  have htelescope := hJ.telescope
  rw [hargs, allIn_append, allIn_append] at htelescope
  obtain ⟨T?, s₁, hoption, h⟩ := h.bind
  obtain ⟨hfamily, rfl⟩ := ends_ofOption.mp hoption
  cases T? with
  | none => exact absurd h not_ends_throw
  | some T =>
    have hmajor : (({} : Metas).instantiate x.major.type).In (noFree.pushAll x.before) 0 := htelescope.1.2.1
    have hT := known_of_familyOf? (hJ.admits x.before) hmajor hfamily
    obtain ⟨heads, s₁, hheads, h⟩ := h.bind
    obtain rfl := supply_of_mapM (fun _ _ _ _ => supply_of_ctorOf) hheads
    obtain ⟨selected, s₂, hselected, h⟩ := h.bind
    obtain ⟨hlen, rfl⟩ := selectClauses_length hselected
    obtain ⟨level, s₁, hlevel, h⟩ := h.bind
    cases hlevels : T.recursorLevels? level with
    | none =>
      rw [hlevels] at h
      exact absurd h not_ends_throw
    | some levels =>
      rw [hlevels] at h
      obtain ⟨⟨minors, equations⟩, s₂, hcases, h⟩ := h.bind
      obtain ⟨rfl, rfl⟩ := h.pure
      have hks : ∀ j k, (T.family.ctors.zip selected)[j]? = some k → T.family.ctors[0 + j]? = some k.1 := by
        intro j k hk
        rw [zero_add]
        exact (getElem?_zip_eq_some.mp hk).1
      obtain ⟨cs, hcs, hof, hminors, hequations⟩ :=
        compileCases_ends hJ hargs hT hks (le_trans hn (next_le_of_sortOf hlevel)) hcases
      refine ⟨T, levels, cs, hT, by simp [hcs, hlen], fun i c hc => ?_, ?_, hequations, rfl, rfl⟩
      · have hof := hof i c hc
        rwa [zero_add] at hof
      · dsimp only at hminors
        rw [← hminors]
        rfl

/-- Clauses that match an argument define the function by a recursor on it. -/
lemma definedBy_of_compileMatch (hJ : J.Opened n) (hargs : J.args = x.before ++ [x.major] ++ x.after)
    {T : FamilyInstance} (hT : T.Known J.elaborator.env (noFree.pushAll x.before))
    (hminors : ∀ m ∈ minors, m.In (noFree.pushAll x.before) 0)
    (hvalue : c.value = (T.eliminate levels ((x.statement J).abs [x.major]) minors
      x.major.term (x.after.map Local.term)).abs J.args)
    (hname : c.name = J.definition.name) (hlevels : c.levelParams = J.definition.levelParams) (height : Nat) :
    (J.elaborator.env.insert (c.decl height)).DefinedBy J.definition.name J.definition.constant
      ((const T.family.recursor levels).apply (T.params ++ [(x.statement J).abs [x.major]] ++ minors))
      x.before x.major x.after := by
  have htelescope := hJ.telescope
  have hnodup := hJ.between.nodup
  rw [hargs] at htelescope hnodup
  have hmotive : ((x.statement J).abs [x.major]).In (noFree.pushAll x.before) 0 := by
    have hstatement := hJ.statement_in hargs
    rw [pushAll_append] at hstatement
    rw [allIn_append, allIn_append] at htelescope
    exact .abs htelescope.1.2 hstatement
  have hR : ((const T.family.recursor levels).apply
      (T.params ++ [(x.statement J).abs [x.major]] ++ minors)).In (noFree.pushAll x.before) 0 := by
    refine in_apply.mpr ⟨?_, fun m hm => ?_⟩
    · show (noFree.pushAll x.before).const _ _
      rw [pushAll_const]
      trivial
    · simp only [mem_append, mem_singleton] at hm
      rcases hm with (hm | rfl) | hm
      · exact hT.params m hm
      · exact hmotive
      · exact hminors m hm
  have hunfold : c.value = ((((const T.family.recursor levels).apply
      (T.params ++ [(x.statement J).abs [x.major]] ++ minors)).app x.major.term).apply
        (x.after.map Local.term)).abs (x.before ++ [x.major] ++ x.after) := by
    rw [hvalue, hargs, FamilyInstance.eliminate, apply_append, apply_append]
    rfl
  have hclosed : c.value.In noFree 0 := by
    rw [hunfold]
    refine .abs htelescope (in_apply.mpr ⟨⟨?_, ?_⟩, fun m hm => ?_⟩)
    · rw [append_assoc, pushAll_append]
      exact hR.widen (le_pushAll _ _)
    · exact in_pushAll_term (by simp)
    · obtain ⟨y, hy, rfl⟩ := mem_map.mp hm
      exact in_pushAll_term (mem_append_right _ hy)
  refine ⟨admits_insert_definition hJ.env_scoped.admits_noFree hclosed height, ?_, trivial, hR, htelescope, ?_⟩
  · rw [← hunfold, ClauseDef.constant, ClauseDef.levels, ← hname, ← hlevels]
    exact computes_value _ c height
  · rw [map_append] at hnodup
    exact hnodup.of_append_right

/-- The equation `q` is that of a clause, and its sides are equal by computation in `env`. -/
def Computed (J : Job) (env : Env) (q : DefiningEquation) : Prop :=
  ∃ binders e, ClauseEquation J.elaborator J.definition J.self binders e ∧
    ((J.self :: binders).map Local.id).Nodup ∧ q.type = e.term.pis binders ∧ q.proof = e.refl.abs binders ∧
    env.Computes J.definition.name e.lhs e.rhs

lemma compileMatch_computes (hJ : J.Opened n) (hnew : J.elaborator.env.get? J.definition.name = none)
    (hargs : J.args = x.before ++ [x.major] ++ x.after) (hn : n ≤ s.next)
    (h : FreshM.Ends (J.compileMatch position x) s c s') (height : Nat) :
    ∀ q ∈ c.equations, J.Computed (J.elaborator.env.insert (c.decl height)) q := by
  obtain ⟨T, levels, cs, hT, hlen, hof, hvalue, hequations, hname, hlevels⟩ := compileMatch_ends hJ hargs hn h
  have hminors : ∀ m ∈ cs.map fun c => c.minor.abs c.telescope, m.In (noFree.pushAll x.before) 0 := by
    intro m hm
    obtain ⟨c, hc, rfl⟩ := mem_map.mp hm
    obtain ⟨i, hi⟩ := mem_iff_getElem?.mp hc
    obtain ⟨k, hk⟩ := hof i c hi
    exact hk.place_in
  have hdef := definedBy_of_compileMatch hJ hargs hT hminors hvalue hname hlevels height
  have hrec : (J.elaborator.env.insert (c.decl height)).recursorOf? T.family.recursor = some T.family := by
    obtain ⟨_, _, _, _, a, _, _, hinfo, _, _, hrec⟩ :=
      declares_of_reachable hJ.env (name_of_inductive? hT.family).1
    have hfresh : J.elaborator.env.get? (c.decl height).name = none := by rwa [Compiled.decl, hname]
    refine recursorOf?_insert_of_fresh hfresh ?_
    rw [hinfo]
    exact hrec
  intro q hq
  obtain ⟨i, hi⟩ := mem_iff_getElem?.mp hq
  have hi' : i < cs.length := hequations.length_eq ▸ (List.getElem?_eq_some_iff.mp hi).1
  have hcase : cs[i]? = some cs[i] := getElem?_eq_getElem hi'
  obtain ⟨hlt, hget⟩ := List.getElem?_eq_some_iff.mp hi
  obtain ⟨htype, hproof⟩ := hequations.get hlt hi'
  simp only [get_eq_getElem, hget] at htype hproof
  obtain ⟨k, hk⟩ := hof i _ hcase
  refine ⟨_, _, hk.states, hk.binders_nodup hJ hargs, htype, hproof, ?_⟩
  exact hk.computes hJ hargs hdef hrec hT.params_length (by simp [hlen]) (by simp [hcase])

/-- A single clause without constructors defines the function by its right-hand side. -/
lemma compilePlain_computes (hJ : J.Opened n) (h : FreshM.Ends J.compilePlain s c s') (height : Nat) :
    ∀ q ∈ c.equations, J.Computed (J.elaborator.env.insert (c.decl height)) q := by
  unfold compilePlain at h
  split at h
  rotate_left
  · exact absurd h not_ends_throw
  rename_i clause rest hclauses
  have hclause : clause ∈ J.definition.clauses := hclauses ▸ mem_cons_self
  have hids : (namedAll J.args clause.patterns).map Local.id = J.args.map Local.id :=
    ids_namedAll (le_of_eq (hJ.arity clause hclause).symm)
  split at h
  · obtain ⟨_, _, hreject, _⟩ := h.bind
    exact absurd hreject not_ends_throw
  obtain ⟨rhs, s₁, hrhs, h⟩ := h.bind
  obtain ⟨_, hin, r, hr, rfl⟩ := elaborateRhs_ends hrhs
  split at h
  · obtain ⟨_, _, hreject, _⟩ := h.bind
    exact absurd hreject not_ends_throw
  rename_i hself
  obtain ⟨rfl, rfl⟩ := h.pure
  intro q hq
  obtain rfl := mem_singleton.mp hq
  -- the function itself is not mentioned
  have hin' : r.term.In (noFree.pushAll J.args) 0 := by
    have hin := hin.of_containsFree (by simpa using hself)
    rw [pushAll_of_ids noFree hids] at hin
    refine hin.widen ?_
    exact ⟨fun y hy => hy.1.resolve_right hy.2, fun _ hl => hl, fun _ _ hc => hc, fun _ _ _ hc => hc, fun _ hh => hh⟩
  have hsubst : r.term.subst [(J.self.id, J.definition.constant)] = r.term := by
    rw [subst_eq_replace (by simp [ClauseDef.constant, Term.In])]
    refine replace_eq_self hin' (fun _ _ => rfl) fun y hy => ?_
    have hne : y ≠ J.self.id := by
      rintro rfl
      rcases (pushAll_free _ _ _).mp hy with hy | hy
      · exact hy
      · exact hJ.self_not_mem hy
    simp [listed, lookup_cons, beq_eq_false_iff_ne.mpr hne]
  refine ⟨namedAll J.args clause.patterns, ⟨J.level, J.result, J.definition.constant.apply
    ((namedAll J.args clause.patterns).map Local.term), r.term.subst [(J.self.id, J.definition.constant)]⟩,
    .plain hclause hr, ?_, ?_, ?_, ?_⟩
  · rw [map_cons, hids]
    have hnodup := hJ.between.nodup
    exact hnodup
  · rw [terms_eq_of_ids hids]
    rfl
  · rw [terms_eq_of_ids hids]
    rfl
  · dsimp only
    rw [terms_eq_of_ids hids, hsubst]
    have hvalue := computes_value J.elaborator.env (J.compiled (r.term.abs J.args)
      [J.equation 1 (namedAll J.args clause.patterns) (J.args.map Local.term) r.term J.result]) height
    refine (hvalue.apply_left _).trans ?_
    have hbeta {env : Env} : env.Computes J.definition.name ((r.term.abs J.args).apply (J.args.map Local.term)) _ :=
      .abs_apply hJ.telescope hin' (by simp)
    rw [putAll_own fun _ _ => rfl, replace_id] at hbeta
    exact hbeta

end Job

lemma compile_ends {E : Elaborator} {d : ClauseDef} (henv : Env.Reachable E.env) {s s' : Supply} {c : Compiled}
    (h : FreshM.Ends (compile E d) s c s') :
    ∃ (J : Job) (n : Nat) (s₁ : Supply), J.elaborator = E ∧ J.definition = d ∧ J.Opened n ∧ n ≤ s₁.next ∧
      (FreshM.Ends J.compilePlain s₁ c s' ∨ ∃ (position : Nat) (x : Job.Split),
        J.args = x.before ++ [x.major] ++ x.after ∧ FreshM.Ends (J.compileMatch position x) s₁ c s') := by
  obtain ⟨type, s₁, htype, h⟩ := h.bind
  obtain ⟨_, hfinished, _⟩ := Request.finished_of_run (q := .type {} d.type) htype
  have htype_in : type.term.In noFree 0 :=
    hfinished.term_in.widen { free := fun _ hx => absurd hx not_mem_nil }
  obtain ⟨self, s₂, hself, h⟩ := h.bind
  obtain ⟨rfl, rfl⟩ := ends_assume.mp hself
  cases hclauses : d.clauses with
  | nil => simp only [hclauses] at h; exact absurd h not_ends_throw
  | cons first rest =>
    simp only [hclauses] at h
    cases hfault : (first :: rest).findIdx? (·.patterns.length != first.patterns.length) with
    | some k =>
      simp only [hfault] at h
      obtain ⟨_, _, hreject, _⟩ := h.bind
      exact absurd hreject not_ends_throw
    | none =>
      simp only [hfault] at h
      obtain ⟨opened, s₂, hopened, h⟩ := h.bind
      cases opened with
      | error k => exact absurd h not_ends_throw
      | ok opened =>
        obtain ⟨args, result⟩ := opened
        obtain ⟨hlen, hbetween, hargs, hresult⟩ :=
          openArguments_between (scoped_of_reachable henv).admits_noFree htype_in hopened
        dsimp only at h
        split at h
        · obtain ⟨_, _, hreject, _⟩ := h.bind
          exact absurd hreject not_ends_throw
        obtain ⟨level, s₃, hlevel, h⟩ := h.bind
        obtain ⟨_, s₄, hloop, h⟩ := h.bind
        obtain rfl : s₃ = s₄ := by
          refine supply_of_forIn (fun p u s r s' hr => ?_) hloop
          split at hr
          · obtain ⟨_, _, hreject, _⟩ := hr.bind
            exact absurd hreject not_ends_throw
          · exact (hr.pure).2
        have hopen : Job.Opened ⟨E, d, type.term, Local.new s₁.next d.name type.term, args, result, level⟩ s₂.next := by
          refine ⟨henv, hargs, hresult, ?_, fun c hc => ?_⟩
          · exact ((Local.Between.new _ _ _).append hbetween).weaken (zero_le _) (le_refl _)
          · have heq := findIdx?_eq_none_iff.mp hfault c (hclauses ▸ hc)
            rw [hlen]
            simpa using heq
        refine ⟨_, s₂.next, s₃, rfl, rfl, hopen, next_le_of_sortOf hlevel, ?_⟩
        split at h
        · exact .inl h
        · rename_i position _
          split at h
          · rename_i major after hdrop
            refine .inr ⟨position, ⟨args.take position, major, after⟩, ?_, h⟩
            rw [append_assoc, singleton_append, ← hdrop, take_append_drop]
          · exact .inl h

/-- Compilation preserves meaning: every equation that comes with a compiled function, which is that of a clause, holds
by β, ι, η and the definition of the function alone. -/
theorem equations_compute {E : Elaborator} {d : ClauseDef} (henv : Env.Reachable E.env)
    (hnew : E.env.get? d.name = none) {s s' : Supply} {c : Compiled} (h : FreshM.Ends (compile E d) s c s')
    (height : Nat) {q : DefiningEquation} (hq : q ∈ c.equations) :
    ∃ self binders e, ClauseEquation E d self binders e ∧ ((self :: binders).map Local.id).Nodup ∧
      q.type = e.term.pis binders ∧ q.proof = e.refl.abs binders ∧
      (E.env.insert (c.decl height)).Computes d.name e.lhs e.rhs := by
  obtain ⟨J, n, s₁, rfl, rfl, hJ, hn, hplain | ⟨position, x, hargs, hmatch⟩⟩ := compile_ends henv h
  · exact ⟨J.self, Job.compilePlain_computes hJ hplain height q hq⟩
  · exact ⟨J.self, Job.compileMatch_computes hJ hnew hargs hn hmatch height q hq⟩

/-- Addition of numbers, by recursion on the first of them. -/
def addition : ClauseDef where
  name := ⟨"add"⟩
  levelParams := []
  type := .arrow (.ident ⟨"N"⟩) (.arrow (.ident ⟨"N"⟩) (.ident ⟨"N"⟩))
  clauses := [⟨[.ctor ⟨"z"⟩ [], .var ⟨"m"⟩], .ident ⟨"m"⟩⟩,
    ⟨[.ctor ⟨"s"⟩ [.var ⟨"n"⟩], .var ⟨"m"⟩],
      .app (.ident ⟨"N.s"⟩) ((Expr.ident ⟨"add"⟩).apply [.ident ⟨"n"⟩, .ident ⟨"m"⟩])⟩]

/-- The type of equality. -/
def equalityType : Term :=
  .pi ⟨"A"⟩ false (.sort (.param ⟨"u"⟩)) (.arrow (.var 0) (.arrow (.var 1) (.sort .zero)))

/-- Both equations of addition compute. -/
theorem addition_equations_compute : ∃ (E : Elaborator) (s' : Supply) (c : Compiled), Env.Reachable E.env ∧
    E.env.get? ⟨"add"⟩ = none ∧ FreshM.Ends (compile E addition) {} c s' ∧ c.equations.length = 2 ∧
    ∀ q ∈ c.equations, ∃ self binders e, ClauseEquation E addition self binders e ∧
      ((self :: binders).map Local.id).Nodup ∧ q.type = e.term.pis binders ∧ q.proof = e.refl.abs binders ∧
      (E.env.insert (c.decl 1)).Computes ⟨"add"⟩ e.lhs e.rhs := by
  have hadd : ∃ env₁ env₂, (({} : Env).addInductive 20 0 Env.numbers).Yields env₁ ∧
      (env₁.addPostulate 20 0 ⟨"Eq"⟩ [⟨"u"⟩] equalityType).Yields env₂ ∧ env₂.get? ⟨"add"⟩ = none ∧
      ((compile { env := env₂, fuel := 12 } addition).run {}).run.map
        (fun r => r.toOption.map (·.1.equations.length)) = some (some 2) :=
    ⟨_, _, rfl, rfl, rfl, by decide +kernel⟩
  obtain ⟨env₁, env₂, hN, hEq, hnew, hrun⟩ := hadd
  have hEqbelow : equalityType.Below 0 := by
    simp [Term.Below, equalityType, arrow, Term.In]
  have henv : Env.Reachable env₂ :=
    (Relation.ReflTransGen.single (.family Env.numbers_below hN)).tail (.postulate hEqbelow hEq)
  obtain ⟨r, hr, hlength⟩ := Option.map_eq_some_iff.mp hrun
  cases r with
  | error e => simp [Except.toOption] at hlength
  | ok r =>
    obtain ⟨c, s'⟩ := r
    have hlength : c.equations.length = 2 := by simpa [Except.toOption] using hlength
    refine ⟨⟨env₂, {}, [], Decider.defaults, 12⟩, s', c, henv, hnew, hr, hlength, fun q hq => ?_⟩
    exact equations_compute henv hnew hr 1 hq

end Compiler

end ProofAssistant
