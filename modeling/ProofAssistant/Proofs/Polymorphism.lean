import ProofAssistant.Proofs.LevelInstances
import ProofAssistant.Proofs.Soundness

/-!
# Universe polymorphism

A term that is accepted is accepted with all levels for its universe parameters, and its type is the one found
before, with these levels (`Env.Infers.only_put`). Whether the checker ends may depend on the levels, so the
statements are about runs that do: `Fueled.Only x a` says that `x` has no other answer than `a`, and no error.
-/

namespace ProofAssistant

open Context List

/-! ## At most one answer -/

namespace Fueled

variable {ε α β : Type}

/-- If the computation ends, it is with the answer `a`. -/
def Only (x : Fueled ε α) (a : α) : Prop :=
  ∀ r, x.run = some r → r = .ok a

lemma Yields.only {x : Fueled ε α} {a : α} (h : x.Yields a) : x.Only a := by
  intro r hr
  exact (Option.some.inj (h.symm.trans hr)).symm

lemma only_exhausted (a : α) : (exhausted : Fueled ε α).Only a :=
  fun _ h => nomatch h

lemma only_ofOption {o : Option α} {a : α} (h : ∀ b, o = some b → b = a) : (ofOption o : Fueled ε α).Only a := by
  intro r hr
  obtain ⟨b, hb, rfl⟩ := Option.map_eq_some_iff.mp hr
  rw [h b hb]

lemma Only.bind {x : Fueled ε α} {f : α → Fueled ε β} {a : α} {b : β} (hx : x.Only a) (hf : (f a).Only b) :
    (x >>= f).Only b := by
  intro r hr
  rcases hrun : x.run with _ | result
  · rw [ExceptT.run_bind, hrun] at hr
    exact nomatch hr
  · obtain rfl := hx result hrun
    rw [ExceptT.run_bind, hrun] at hr
    exact hf r hr

end Fueled

/-- The hypotheses with their levels mapped. -/
def Context.mapLevels (f : Level → Level) (Γ : Context) : Context :=
  ⟨Γ.locals.map (·.mapLevels f)⟩

@[simp] lemma Context.mapLevels_add (f : Level → Level) (Γ : Context) (x : Local) :
    (Γ.add x).mapLevels f = (Γ.mapLevels f).add (x.mapLevels f) := by
  simp [mapLevels, add]

lemma Context.get?_mapLevels (f : Level → Level) (Γ : Context) (x : Id) :
    (Γ.mapLevels f).get? x = (Γ.get? x).map (·.mapLevels f) := by
  rw [get?, mapLevels, ← map_reverse, find?_map]
  rfl

namespace Env

variable {next : Nat} {Γ : Context} {m : Term} {l : Level}

open Fueled InductiveSpec

variable {env : Env} {ps ps' : List Name} {σ : Name → Level}

/-! ## Type checking -/

lemma only_inferSort {S : Term} (hm : ∀ fuel, (env.infer ps fuel next Γ m).Only S)
    (hS : ∀ fuel R, env.whnf fuel S = some R → R = .sort l) (fuel : Nat) : (env.inferSort ps fuel next Γ m).Only l := by
  cases fuel with
  | zero => exact only_exhausted l
  | succ fuel =>
    exact (hm fuel).bind ((only_ofOption (hS fuel)).bind (Yields.only (yields_pure.mpr rfl)))

lemma only_check {A T : Term} (hm : ∀ fuel, (env.infer ps fuel next Γ m).Only A)
    (hA : ∀ fuel, env.isDefEq fuel next A T ≠ some false) (fuel : Nat) : (env.check ps fuel next Γ m T).Only () := by
  cases fuel with
  | zero => exact only_exhausted ()
  | succ fuel =>
    have htest : ∀ answer, env.isDefEq fuel next A T = some answer → answer = true := by
      intro answer hanswer
      cases answer with
      | false => exact absurd hanswer (hA fuel)
      | true => rfl
    exact (hm fuel).bind ((only_ofOption htest).bind (Yields.only (yields_pure.mpr rfl)))

lemma Infers.only_put (henv : env.Scoped) (hσ : ∀ p ∈ ps, (σ p).Admitted ps') {T : Term}
    (h : env.Infers ps next Γ m T) (hΓ : env.ContextIn ps Γ) {k : Nat}
    (hm : m.In { free := fun x => x.number < next } k) (fuel : Nat) :
    (env.infer ps' fuel next (Γ.mapLevels (·.put σ)) (m.mapLevels (·.put σ))).Only (T.mapLevels (·.put σ)) := by
  have hput {ls : List Level} (hls : ∀ l ∈ ls, l.Admitted ps) : ∀ l ∈ ls.map (·.put σ), l.Admitted ps' := by
    intro l hl
    obtain ⟨l', hl', rfl⟩ := mem_map.mp hl
    exact (hls l' hl').put hσ
  have hwhnf {P : Id → Prop} {fuel fuel' : Nat} {F F' : Term} (hF : F.In (env.scope ps P) 0)
      (hwhnf : env.whnf fuel F = some F') :
      ∀ R, env.whnf fuel' (F.mapLevels (·.put σ)) = some R → R = F'.mapLevels (·.put σ) := by
    intro R hR
    rw [whnf_mapLevels henv hF] at hR
    obtain ⟨F'', hF'', rfl⟩ := Option.map_eq_some_iff.mp hR
    rw [whnf_unique hwhnf hF'']
  induction h generalizing k fuel with
  | @free next Γ x h hget =>
    cases fuel with
    | zero => exact only_exhausted _
    | succ fuel =>
      have hget' : (Γ.mapLevels (·.put σ)).get? x = some (h.mapLevels (·.put σ)) := by
        rw [get?_mapLevels, hget, Option.map_some]
      simp only [Term.mapLevels, infer, hget']
      exact Yields.only (yields_pure.mpr rfl)
  | sort hl =>
    cases fuel with
    | zero => exact only_exhausted _
    | succ fuel =>
      exact ((yields_checkLevel (u := ())).mpr (hl.put hσ)).only.bind (Yields.only (yields_pure.mpr rfl))
  | @const next Γ c ls d hget hkind hlen hls =>
    cases fuel with
    | zero => exact only_exhausted _
    | succ fuel =>
      simp only [Term.mapLevels, infer, hget]
      rw [mapLevels_instantiateLevelParams (henv.terms d (mem_of_find?_eq_some hget) d.type d.type_mem_terms)
        hlen]
      exact (yields_instantiateType.mpr ⟨hlen.trans (length_map _).symm, hput hls, rfl⟩).only
  | @ctor next Γ family i n ls t k ht hk hlen hls =>
    cases fuel with
    | zero => exact only_exhausted _
    | succ fuel =>
      simp only [Term.mapLevels, infer, ht, hk]
      rw [mapLevels_instantiateLevelParams (henv.ctors _ _ ht _ (mem_of_getElem? hk)) hlen]
      exact (yields_instantiateType.mpr ⟨hlen.trans (length_map _).symm, hput hls, rfl⟩).only
  | @app next fuel₁ fuel₂ Γ f a F A t b x i hf hpi ha hconv ihf iha =>
    have hF := hf.type_in_scope henv hΓ hm.1
    have hA := ha.type_in_scope henv hΓ hm.2
    have ht := ((steps_of_whnf hpi).in_scope (henv.admits_scope ps _) hF).1
    cases fuel with
    | zero => exact only_exhausted _
    | succ fuel =>
      rw [Term.mapLevels_instantiate]
      have harg := only_check (iha hΓ hm.2) (fun fuel => isDefEq_put henv hσ hA ht hconv) fuel
      exact (ihf hΓ hm.1 fuel).bind ((only_ofOption (hwhnf hF hpi)).bind
        (harg.bind (Yields.only (yields_pure.mpr rfl))))
  | @lam next fuel₁ Γ x t b S B l ht hsort hb iht ihb =>
    have hS := ht.type_in_scope henv hΓ hm.1
    have hΓ' := hΓ.add (x := .new next x t) (ht.in_scope hm.1)
    cases fuel with
    | zero => exact only_exhausted _
    | succ fuel =>
      have hdomain := only_inferSort (iht hΓ hm.1) (fun _ => hwhnf hS hsort) fuel
      have hbody := ihb hΓ' (below_opened hm.2 x t) fuel
      simp only [Term.mapLevels, Term.mapLevels_close]
      rw [Term.mapLevels_instantiate, mapLevels_add] at hbody
      exact hdomain.bind (hbody.bind (Yields.only (yields_pure.mpr rfl)))
  | @pi next fuel₁ fuel₂ Γ x i t b S S' l l' ht hsort hb hsort' iht ihb =>
    have hS := ht.type_in_scope henv hΓ hm.1
    have hΓ' := hΓ.add (x := .new next x t) (ht.in_scope hm.1)
    have hS' := hb.type_in_scope henv hΓ' (below_opened hm.2 x t)
    cases fuel with
    | zero => exact only_exhausted _
    | succ fuel =>
      have hdomain := only_inferSort (iht hΓ hm.1) (fun _ => hwhnf hS hsort) fuel
      have hbody := only_inferSort (ihb hΓ' (below_opened hm.2 x t)) (fun _ => hwhnf hS' hsort') fuel
      rw [Term.mapLevels_instantiate, mapLevels_add] at hbody
      exact hdomain.bind (hbody.bind (Yields.only (yields_pure.mpr rfl)))

/-! ### Runs with other levels -/

section

variable {Γ : Context} {next next' : Nat} {m T : Term} (henv : env.Scoped) (hσ : ∀ p ∈ ps, (σ p).Admitted ps')
  (hΓ : env.ContextIn ps Γ) (hnext : ∀ x ∈ Γ.ids, x.number < next) (hnext' : ∀ x ∈ Γ.ids, x.number < next')
  (hm : m.Below next)

include henv hσ hΓ hnext hnext' hm

lemma Infers.only_at (h : env.Infers ps next Γ m T) (fuel : Nat) :
    (env.infer ps' fuel next' (Γ.mapLevels (·.put σ)) (m.mapLevels (·.put σ))).Only (T.mapLevels (·.put σ)) := by
  have hm' : m.In { free := fun x => x.number < next' } 0 :=
    (h.in_scope hm).widen (Scope.le_of_free hnext')
  exact (h.renumber henv hΓ hm hnext hnext').only_put henv hσ hΓ hm' fuel

lemma InfersSort.only_at (h : env.InfersSort ps next Γ m l) (fuel : Nat) :
    (env.inferSort ps' fuel next' (Γ.mapLevels (·.put σ)) (m.mapLevels (·.put σ))).Only (l.put σ) := by
  obtain ⟨S, fuel', hS, hwhnf⟩ := h
  refine only_inferSort (hS.only_at henv hσ hΓ hnext hnext' hm) (fun fuel R hR => ?_) fuel
  rw [whnf_mapLevels henv (hS.type_in_scope henv hΓ hm)] at hR
  obtain ⟨R', hR', rfl⟩ := Option.map_eq_some_iff.mp hR
  rw [← whnf_unique hwhnf hR', Term.mapLevels]

lemma Checks.only_at (hT : T.In (env.scope ps (· ∈ Γ.ids)) 0) (h : env.Checks ps next Γ m T) (fuel : Nat) :
    (env.check ps' fuel next' (Γ.mapLevels (·.put σ)) (m.mapLevels (·.put σ)) (T.mapLevels (·.put σ))).Only () := by
  obtain ⟨A, fuel', hA, hconv⟩ := h
  have hAin := hA.type_in_scope henv hΓ hm
  rw [← isDefEq_renumber henv hAin hT hnext hnext'] at hconv
  exact only_check (hA.only_at henv hσ hΓ hnext hnext' hm) (fun _ => isDefEq_put henv hσ hAin hT hconv) fuel

end

/-! ## Declarations -/

/-- The checker finds no fault with the declaration, whatever levels are given for its universe parameters,
unless it gives no answer. -/
def AcceptsInstances (env : Env) (d : Decl) : Prop :=
  ∀ (ps : List Name) (us : List Level), d.levelParams.length = us.length → (∀ u ∈ us, u.Admitted ps) →
    ∀ fuel next,
      (∀ r, (env.inferSort ps fuel next {} (d.type.instantiateLevelParams d.levelParams us)).run = some r →
        ∃ l, r = .ok l) ∧
      ∀ v ∈ d.terms.tail, ∀ r, (env.check ps fuel next {} (v.instantiateLevelParams d.levelParams us)
        (d.type.instantiateLevelParams d.levelParams us)).run = some r → r = .ok ()

lemma acceptsInstances {d : Decl} (henv : env.Scoped) (htypeBelow : d.type.Below next)
    (htype : env.InfersSort d.levelParams next {} d.type l)
    (hvalue : ∀ v ∈ d.terms.tail, v.Below next ∧ env.Checks d.levelParams next {} v d.type) :
    env.AcceptsInstances d := by
  intro ps us hlen hus fuel next'
  have hσ : ∀ p ∈ d.levelParams, (Level.lookupParam d.levelParams us p).Admitted ps :=
    fun p hp => hus _ (Level.lookupParam_mem hlen hp)
  have hΓ : env.ContextIn d.levelParams {} := fun x h hget => nomatch hget
  have hids {n : Nat} : ∀ x ∈ ids {}, x.number < n := fun x hx => nomatch hx
  have hterm (m : Term) : m.instantiateLevelParams d.levelParams us =
      m.mapLevels (·.put (Level.lookupParam d.levelParams us)) := Term.instantiateLevelParams_eq_mapLevels ..
  have htypeIn : d.type.In (env.scope d.levelParams (· ∈ ids {})) 0 := by
    obtain ⟨S, _, hS, _⟩ := htype
    exact hS.in_scope htypeBelow
  refine ⟨fun r hr => ?_, fun v hv r hr => ?_⟩
  · rw [hterm] at hr
    exact ⟨_, htype.only_at henv hσ hΓ hids hids htypeBelow fuel r hr⟩
  · obtain ⟨hvBelow, hcheck⟩ := hvalue v hv
    rw [hterm, hterm] at hr
    exact hcheck.only_at henv hσ hΓ hids hids hvBelow htypeIn fuel r hr

/-- Levels may be put for universe parameters. If the checker finds the type `T` for `m`, then for admitted levels `σ`
it finds no other type than `T` with these levels, whatever numbers it opens binders with. So declarations that pass the
checks do so at all levels, each in the environment in which it is checked. -/
theorem infer_put_only (henv : Reachable env) :
    (∀ (ps : List Name) (Γ : Context) (m T : Term) (fuel next : Nat), env.ContextAccepted ps Γ →
      (∀ x ∈ Γ.ids, x.number < next) → m.Below next → (env.infer ps fuel next Γ m).Yields T →
      ∀ (ps' : List Name) (σ : Name → Level), (∀ p ∈ ps, (σ p).Admitted ps') →
      ∀ fuel' next', (∀ x ∈ Γ.ids, x.number < next') → ∀ r,
        (env.infer ps' fuel' next' (Γ.mapLevels (·.put σ)) (m.mapLevels (·.put σ))).run = some r →
        r = .ok (T.mapLevels (·.put σ))) ∧
    (∀ d, env.DeclAccepted d → env.AcceptsInstances d) ∧
    ∀ (fuel next : Nat) (spec : InductiveSpec) (a : Accepted env fuel next spec), spec.Below next →
      env.AcceptsInstances spec.decl ∧ (∀ d ∈ a.ctorDecls, (env.insert spec.decl).AcceptsInstances d) ∧
      a.withInfo.AcceptsInstances a.recursorDecl := by
  have hscoped := scoped_of_reachable henv
  have hfam := familiesDeclared henv
  refine ⟨fun ps Γ m T fuel next hΓ hnext hm h ps' σ hσ fuel' next' hnext' r hr => ?_, fun d hd => ?_,
    fun fuel next spec a hb => ⟨?_, fun d hd => ?_, ?_⟩⟩
  · have hΓ := hΓ.contextFor (⟨hscoped, False.elim, False.elim⟩ : env.Supports False) hnext
    exact (infers_of_infer h).only_at hscoped hσ hΓ.inScope hnext hnext' hm fuel' r hr
  · cases hd with
    | postulate hb hl => exact acceptsInstances hscoped hb (infersSort_of_inferSort hl) (by simp [Decl.terms])
    | definition hb hbv hl hv | proposition hb hbv hl _ hv =>
      refine acceptsInstances hscoped hb (infersSort_of_inferSort hl) ?_
      simpa [Decl.terms] using ⟨hbv, checks_of_check hv⟩
  · obtain ⟨l, hl⟩ := a.typed
    exact acceptsInstances hscoped hb.1 (infersSort_of_inferSort hl) (by simp [Decl.terms, decl])
  · obtain ⟨i, k, hk, rfl⟩ := a.kind_of_mem_ctorDecls hd
    obtain ⟨o, ho, rfl⟩ := List.mem_map.mp (List.mem_of_getElem? hk)
    obtain ⟨c, hc, hacc⟩ := a.exists_ctor ho
    obtain ⟨l, hl⟩ := hacc.typed
    obtain ⟨_, _, _, _, _, _, _, rfl⟩ := hacc.opened
    exact acceptsInstances (hscoped.withType a hb) (Accepted.ctor_below hb hc) (infersSort_of_inferSort hl) (by simp [Decl.terms])
  · obtain ⟨l, hl⟩ := a.recursorTyped
    have hbelow : a.recursorDecl.type.Below a.nextFree :=
      ((a.recursor_type_in hscoped.admits_noFree hb).mono (scope_le_noFree _ _) (Nat.le_refl 0)).mono
        { free := fun _ (h : False) => h.elim } (Nat.zero_le _)
    exact acceptsInstances (hscoped.withInfo a hb hfam) hbelow (infersSort_of_inferSort hl)
      (by simp [Decl.terms, Accepted.recursorDecl])

/-- The identity at `u + 1`, on a type whose level is `u + 1` only after normalization, with a stuck maximum for
`u`. -/
theorem identity_at_levels : ∃ env Γ m T, Reachable env ∧ env.ContextAccepted [⟨"u"⟩] Γ ∧ m.Below 1 ∧
    m = .app (.const ⟨"id"⟩ [.succ (.param ⟨"u"⟩)]) (.free ⟨0, some ⟨"A"⟩⟩) ∧
    (env.infer [⟨"u"⟩] 20 1 Γ m).Yields T ∧
    ∀ fuel r, (env.infer [⟨"v"⟩, ⟨"w"⟩] fuel 1 (Γ.mapLevels (·.put fun _ => .imax (.param ⟨"v"⟩) (.param ⟨"w"⟩)))
      (m.mapLevels (·.put fun _ => .imax (.param ⟨"v"⟩) (.param ⟨"w"⟩)))).run = some r →
      r = .ok (.pi ⟨"x"⟩ false (.free ⟨0, some ⟨"A"⟩⟩) (.free ⟨0, some ⟨"A"⟩⟩)) := by
  let A : Local := .new 0 ⟨"A"⟩ (.sort (.imax (.param ⟨"u"⟩) (.succ (.param ⟨"u"⟩))))
  let type : Term := .pi ⟨"A"⟩ false (.sort (.param ⟨"u"⟩)) (.pi ⟨"x"⟩ false (.var 0) (.var 1))
  let value : Term := .lam ⟨"A"⟩ (.sort (.param ⟨"u"⟩)) (.lam ⟨"x"⟩ (.var 0) (.var 0))
  let m : Term := .app (.const ⟨"id"⟩ [.succ (.param ⟨"u"⟩)]) A.term
  have hadd : ∃ env, (({} : Env).addDefinition 20 0 ⟨"id"⟩ [⟨"u"⟩] type value).Yields env ∧
      (env.inferSort [⟨"u"⟩] 20 0 {} A.type).Yields (.succ (.imax (.param ⟨"u"⟩) (.succ (.param ⟨"u"⟩)))) ∧
      (env.infer [⟨"u"⟩] 20 1 (Context.add {} A) m).Yields (.pi ⟨"x"⟩ false A.term A.term) :=
    ⟨_, rfl, rfl, rfl⟩
  obtain ⟨env, hid, hsort, hinfer⟩ := hadd
  have htype : type.Below 0 := by simp [type, Term.Below, Term.In]
  have hvalue : value.Below 0 := by simp [value, Term.Below, Term.In]
  have hreach : Reachable env := .single (.definition htype hvalue hid)
  have hΓ : env.ContextAccepted [⟨"u"⟩] (Context.add {} A) :=
    .add .nil (List.not_mem_nil) (fun _ h => absurd h List.not_mem_nil) (by simp [A, Local.new, Term.Below, Term.In]) hsort
  have hm : m.Below 1 := by simp [m, A, Local.new, Local.term, Term.Below, Term.In]
  have hσ : ∀ p ∈ [(⟨"u"⟩ : Name)], (Level.imax (.param ⟨"v"⟩) (.param ⟨"w"⟩)).Admitted [⟨"v"⟩, ⟨"w"⟩] := by simp
  exact ⟨env, _, m, _, hreach, hΓ, hm, rfl, hinfer, fun fuel =>
    (infer_put_only hreach).1 _ _ m _ 20 1 hΓ (by decide) hm hinfer _ _ hσ fuel 1 (by decide)⟩

end Env

end ProofAssistant
