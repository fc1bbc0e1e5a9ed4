import ProofAssistant.Proofs.LevelNormalForm
import ProofAssistant.Proofs.Renaming

/-!
# Conversion at other levels

Levels put for universe parameters are put for them also in what a term reduces to (`Env.whnf_mapLevels`).
Conversion may take another way for the instances of two terms: levels that were different may become equal,
and then heads match that did not. But no test that has succeeded fails, so terms that are convertible have
instances that are not found different (`Env.isDefEq_put`).
-/

namespace ProofAssistant

open Term Option List

namespace Level

/-- Levels that pass for equal do so for all values of their parameters. -/
lemma Admitted.isEquiv_put {ps ps' : List Name} {a b : Level} (ha : a.Admitted ps) (hb : b.Admitted ps)
    {σ : Name → Level} (hσ : ∀ p ∈ ps, (σ p).Admitted ps') (h : a.isEquiv b) : (a.put σ).isEquiv (b.put σ) := by
  -- outside of the parameters of the two levels the substitution may be anything
  let τ : Name → Level := fun p => if p ∈ ps then σ p else .zero
  have hτ : ∀ p, (τ p).Plain := by
    intro p
    by_cases hp : p ∈ ps
    · simpa only [τ, if_pos hp] using Plain.of_hasMVar (hσ p hp).1
    · simpa only [τ, if_neg hp] using plain_zero
  have heq {l : Level} (hl : l.Admitted ps) : l.put σ = l.subst τ fun _ => .zero :=
    hl.subst_congr fun p hp => by simp only [τ, if_pos hp]
  rw [heq ha, heq hb]
  exact isEquiv_subst (.of_hasMVar ha.1) (.of_hasMVar hb.1) hτ (fun _ => plain_zero) h

end Level

namespace Env

variable {env : Env} {ps ps' : List Name} {σ : Name → Level}
variable {P : Id → Prop} {k k' : Nat} {a b : Term}

/-! ## Reduction -/

lemma Scoped.relabels_subst (henv : env.Scoped) (ps : List Name) (P : Id → Prop) (σ : Name → Level) :
    env.Relabels env (env.scope ps P) (·.put σ) where
  recursor _ _ _ := rfl
  height _ _ _ := rfl
  unfold := by
    rintro c ls ⟨⟨d, hd, hlen⟩, hls⟩ ρ
    rw [unfoldConst?_of_get? hd, unfoldConst?_of_get? hd]
    cases hkind : d.kind with
    | definition value n =>
      have hv : value ∈ d.terms := by simp [Decl.terms, hkind]
      have hvalue := henv.terms d (mem_of_find?_eq_some hd) value hv
      have hclosed := in_scope_instantiate hvalue hlen hls fun _ => False
      simp only [length_map, if_pos hlen, map_some, relabel_of_closed hclosed,
        mapLevels_instantiateLevelParams hvalue hlen]
    | _ => rfl

lemma whnfCore_mapLevels (henv : env.Scoped) {m : Term} (hm : m.In (env.scope ps P) k) (σ : Name → Level)
    (fuel : Nat) : env.whnfCore fuel (m.mapLevels (·.put σ)) = (env.whnfCore fuel m).map (·.mapLevels (·.put σ)) := by
  have h := (henv.relabels_subst ps P σ).whnfCore (henv.admits_scope ps P) hm id fuel
  simpa only [relabel_id_left] using h

lemma whnf_mapLevels (henv : env.Scoped) {m : Term} (hm : m.In (env.scope ps P) k) (σ : Name → Level) (fuel : Nat) :
    env.whnf fuel (m.mapLevels (·.put σ)) = (env.whnf fuel m).map (·.mapLevels (·.put σ)) := by
  have h := (henv.relabels_subst ps P σ).whnf (henv.admits_scope ps P) hm id fuel
  simpa only [relabel_id_left] using h

/-! ## Conversion -/

lemma alphaEq_mapLevels (h : a.alphaEq b) (f : Level → Level) : (a.mapLevels f).alphaEq (b.mapLevels f) := by
  rw [alphaEq_iff] at h ⊢
  induction h with
  | app _ _ ihf iha => exact .app ihf iha
  | lam _ _ iht ihb => exact .lam iht ihb
  | pi _ _ iht ihb => exact .pi iht ihb
  | _ => constructor

section

variable (hσ : ∀ p ∈ ps, (σ p).Admitted ps')

include hσ

lemma levelsEquiv_put {ls ls' : List Level} (hls : ∀ l ∈ ls, l.Admitted ps) (hls' : ∀ l ∈ ls', l.Admitted ps)
    (h : levelsEquiv ls ls') : levelsEquiv (ls.map (·.put σ)) (ls'.map (·.put σ)) := by
  simp only [levelsEquiv, zip_map, List.all_map, List.all_eq_true] at h ⊢
  intro pair hpair
  obtain ⟨hl, hl'⟩ := of_mem_zip hpair
  exact (hls _ hl).isEquiv_put (hls' _ hl') hσ (h pair hpair)

lemma headsEq_put (ha : a.In (env.scope ps P) k) (hb : b.In (env.scope ps P) k') (h : headsEq a b) :
    headsEq (a.mapLevels (·.put σ)) (b.mapLevels (·.put σ)) := by
  cases a with
  | const c ls =>
    cases b with
    | const c' ls' =>
      simp only [mapLevels, headsEq, Bool.and_eq_true, length_map] at h ⊢
      exact ⟨h.1, levelsEquiv_put hσ ha.2 hb.2 h.2⟩
    | _ => cases h
  | ctor t i c ls =>
    cases b with
    | ctor t' i' c' ls' =>
      simp only [mapLevels, headsEq, Bool.and_eq_true] at h ⊢
      exact ⟨h.1, levelsEquiv_put hσ ha.2 hb.2 h.2⟩
    | _ => cases h
  | _ => cases b <;> exact h

end

/-- A test and then another one, of which neither fails. -/
lemma bind_ne_false {x y : Option Bool} (hx : x ≠ some false) (hy : y ≠ some false) :
    (x.bind fun answer => if answer then y else some false) ≠ some false := by
  rcases x with _ | _ | _
  · exact nofun
  · exact absurd rfl hx
  · exact hy

/-- A test that does not turn against two terms when levels are put for their parameters. -/
def TestStable (env : Env) (ps : List Name) (σ : Name → Level) (test : Nat → Term → Term → Option Bool) : Prop :=
  ∀ (next k k' : Nat) (a b : Term), a.In (env.scope ps fun _ => True) k → b.In (env.scope ps fun _ => True) k' →
    test next a b = some true → test next (a.mapLevels (·.put σ)) (b.mapLevels (·.put σ)) ≠ some false

variable {test : Nat → Term → Term → Option Bool}

lemma TestStable.spinesEq (htest : env.TestStable ps σ test) (hσ : ∀ p ∈ ps, (σ p).Admitted ps')
    (ha : a.In (env.scope ps fun _ => True) k) (hb : b.In (env.scope ps fun _ => True) k') {next : Nat}
    (h : spinesEq (test next) a b = some true) :
    spinesEq (test next) (a.mapLevels (·.put σ)) (b.mapLevels (·.put σ)) ≠ some false := by
  have hpairs : ∀ as bs : List Term, (∀ a ∈ as, a.In (env.scope ps fun _ => True) k) →
      (∀ b ∈ bs, b.In (env.scope ps fun _ => True) k') → allPairs (test next) as bs = some true →
      allPairs (test next) (as.map (·.mapLevels (·.put σ))) (bs.map (·.mapLevels (·.put σ))) ≠ some false := by
    intro as
    induction as with
    | nil => simp [allPairs]
    | cons a as ih =>
      intro bs has hbs h
      cases bs with
      | nil => simp [allPairs]
      | cons b bs =>
        obtain ⟨ha, has⟩ := forall_mem_cons.mp has
        obtain ⟨hb, hbs⟩ := forall_mem_cons.mp hbs
        obtain ⟨answer, hab, h⟩ := bind_eq_some_iff.mp h
        cases answer with
        | false => cases h
        | true => exact bind_ne_false (htest next k k' a b ha hb hab) (ih bs has hbs h)
  obtain ⟨haHead, haArgs⟩ := ha.head_args
  obtain ⟨hbHead, hbArgs⟩ := hb.head_args
  simp only [Env.spinesEq, ← relabel_id_left, args_relabel, head_relabel, length_map] at h ⊢
  simp only [relabel_id_left]
  split at h
  · rename_i hhead
    rw [if_pos ⟨hhead.1, headsEq_put hσ haHead hbHead hhead.2⟩]
    exact hpairs _ _ haArgs hbArgs h
  · cases h

lemma in_scope_opened (hb : b.In (env.scope ps fun _ => True) (k + 1)) (x : Id) :
    (b.instantiate (.free x)).In (env.scope ps fun _ => True) k :=
  hb.instantiate trivial

lemma testStable_compareWith {otherwise : Nat → Term → Term → Option Bool} (hσ : ∀ p ∈ ps, (σ p).Admitted ps')
    (htest : env.TestStable ps σ test) (hother : env.TestStable ps σ otherwise) :
    env.TestStable ps σ fun next => compareWith test (otherwise next) next := by
  intro next k k' a b ha hb h
  have hlam : ∀ {m : Term}, ¬ m.IsLam → ¬ (m.mapLevels (·.put σ)).IsLam := by
    intro m hm
    cases m <;> exact hm
  have hopen (b : Term) : (b.mapLevels (·.put σ)).instantiate (.free ⟨next, none⟩) =
      (b.instantiate (.free ⟨next, none⟩)).mapLevels (·.put σ) := (mapLevels_instantiate _ b (.free _)).symm
  dsimp only at h ⊢
  induction a, b using compare_cases with
  | sorts l l' =>
    simp only [compareWith, mapLevels, Option.some.injEq] at h ⊢
    rw [Level.Admitted.isEquiv_put ha hb hσ h]
    decide
  | products x i t m x' i' t' m' | abstractions x t m x' t' m' =>
    simp only [compareWith, mapLevels, hopen] at h ⊢
    obtain ⟨answer, hdomain, h⟩ := bind_eq_some_iff.mp h
    cases answer with
    | false => cases h
    | true =>
      have hdomain' := htest next k k' t t' ha.1 hb.1 hdomain
      exact bind_ne_false hdomain' (htest (next + 1) k k' _ _ (in_scope_opened ha.2 _) (in_scope_opened hb.2 _) h)
  | etaLeft x t m b hb' =>
    rw [compareWith_etaLeft _ _ _ hb'] at h
    rw [mapLevels, compareWith_etaLeft _ _ _ (hlam hb'), hopen]
    exact htest (next + 1) k k' _ (b.app (.free _)) (in_scope_opened ha.2 _) (And.intro hb trivial) h
  | etaRight a x t m ha' =>
    rw [compareWith_etaRight _ _ _ ha'] at h
    rw [mapLevels, compareWith_etaRight _ _ _ (hlam ha'), hopen]
    exact htest (next + 1) k' k _ (a.app (.free _)) (in_scope_opened hb.2 _) (And.intro ha trivial) h
  | spines a b ha' hb' hab =>
    have hab' : (a.mapLevels (·.put σ)).BinderApart (b.mapLevels (·.put σ)) := by
      cases a <;> cases b <;> exact hab
    rw [compareWith_spines _ _ _ ha' hb' hab] at h
    rw [compareWith_spines _ _ _ (hlam ha') (hlam hb') hab']
    obtain ⟨same, hspines, h⟩ := bind_eq_some_iff.mp h
    cases hspines' : Env.spinesEq (test next) (a.mapLevels (·.put σ)) (b.mapLevels (·.put σ)) with
    | none => rintro ⟨⟩
    | some same' =>
      cases same' with
      | true => rintro ⟨⟩
      | false =>
        -- spines that matched match still, so the first terms went on as well
        cases same with
        | true => exact absurd hspines' (htest.spinesEq hσ ha hb hspines)
        | false => exact hother next k k' a b ha hb h

private lemma isDefEq_stable_of_fuel (henv : env.Scoped) (hσ : ∀ p ∈ ps, (σ p).Admitted ps') (fuel : Nat) :
    env.TestStable ps σ (env.isDefEq fuel) ∧ env.TestStable ps σ (env.isDefEqCore fuel) ∧
      env.TestStable ps σ (env.isDefEqDelta fuel) := by
  have hS := henv.admits_scope ps fun _ => True
  have hput := henv.relabels_subst ps (fun _ => True) σ
  induction fuel with
  | zero => simp [TestStable, isDefEq, isDefEqCore, isDefEqDelta]
  | succ fuel ih =>
    obtain ⟨ihTest, ihCore, ihDelta⟩ := ih
    refine ⟨fun next k k' a b ha hb h => ?_, fun next k k' a b ha hb h => ?_, fun next k k' a b ha hb h => ?_⟩
    · rw [isDefEq_succ] at h ⊢
      by_cases halpha' : (a.mapLevels (·.put σ)).alphaEq (b.mapLevels (·.put σ))
      · simp [halpha']
      · rw [if_neg fun halpha => halpha' (alphaEq_mapLevels halpha _)] at h
        rw [if_neg halpha', whnfCore_mapLevels henv ha, whnfCore_mapLevels henv hb]
        obtain ⟨a', hwa, h⟩ := bind_eq_some_iff.mp h
        obtain ⟨b', hwb, h⟩ := bind_eq_some_iff.mp h
        rw [hwa, hwb]
        exact ihCore next k k' a' b' ((steps_of_whnfCore hwa).in_scope hS ha)
          ((steps_of_whnfCore hwb).in_scope hS hb) h
    · rw [isDefEqCore_succ] at h ⊢
      by_cases halpha' : (a.mapLevels (·.put σ)).alphaEq (b.mapLevels (·.put σ))
      · simp [halpha']
      · rw [if_neg fun halpha => halpha' (alphaEq_mapLevels halpha _)] at h
        rw [if_neg halpha']
        exact testStable_compareWith hσ ihTest ihDelta next k k' a b ha hb h
    · rw [isDefEqDelta_succ] at h ⊢
      by_cases hstuck : env.Stuck a b
      · rw [if_pos hstuck] at h
        cases h
      · rw [if_neg hstuck] at h
        obtain ⟨a', hwa, h⟩ := bind_eq_some_iff.mp h
        obtain ⟨b', hwb, h⟩ := bind_eq_some_iff.mp h
        simp only [← relabel_id_left]
        rw [if_congr (hput.stuck_iff ha hb id) rfl rfl, if_neg hstuck, hput.whnfUnfolded hS ha hb,
          hput.whnfUnfolded hS hb ha, hwa, hwb]
        simp only [map_some, bind_some, relabel_id_left]
        exact ihCore next k k' a' b' (whnfUnfolded_in hS ha hwa) (whnfUnfolded_in hS hb hwb) h

/-- Terms that are found convertible are not found different for some values of the parameters. -/
lemma isDefEq_put (henv : env.Scoped) (hσ : ∀ p ∈ ps, (σ p).Admitted ps') {fuel fuel' next : Nat}
    (ha : a.In (env.scope ps P) k) (hb : b.In (env.scope ps P) k') (h : env.isDefEq fuel next a b = some true) :
    env.isDefEq fuel' next (a.mapLevels (·.put σ)) (b.mapLevels (·.put σ)) ≠ some false := by
  intro h'
  have hle : (env.scope ps P).Le (env.scope ps fun _ => True) := { free := fun _ _ => trivial }
  exact (isDefEq_stable_of_fuel henv hσ (max fuel fuel')).1 next k k' a b (ha.widen hle)
    (hb.widen hle) (isDefEq_mono (Nat.le_max_left ..) h)
    (isDefEq_mono (Nat.le_max_right ..) h')

end Env

end ProofAssistant
