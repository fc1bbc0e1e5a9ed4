import ProofAssistant.Proofs.Comparison
import ProofAssistant.Proofs.Inference

/-!
# More fuel keeps an answer

Reduction, conversion and type checking answer the same with more fuel. So an answer that is found with
some amount of fuel is *the* answer: two runs of different fuel that both end agree
(`Env.whnf_unique`, `Env.isDefEq_unique`).

Derivations of the checker leave the fuel out. `Env.Infers.exists_fuel` gets it back: the checker finds
the type of every derivation, with any fuel from some amount on.
-/

namespace ProofAssistant

open Option

namespace Env

variable {fuel fuel' next : Nat} {m r a b : Term} {ps : List Name} {Γ : Context}

open Fueled

variable {env : Env}

/-! ## Reduction -/

private lemma whnf_succ_of_fuel (fuel : Nat) :
    (∀ m r, env.whnfCore fuel m = some r → env.whnfCore (fuel + 1) m = some r) ∧
    (∀ m r, env.whnf fuel m = some r → env.whnf (fuel + 1) m = some r) := by
  induction fuel with
  | zero => simp [whnfCore, whnf]
  | succ fuel ih =>
    obtain ⟨ihCore, ihWhnf⟩ := ih
    refine ⟨fun m r h => ?_, fun m r h => ?_⟩
    · rw [whnfCore] at h ⊢
      split at h
      · split at h
        · rename_i happ
          rw [if_pos happ]
          exact ihCore _ _ h
        · rename_i happ
          rw [if_neg happ]
          exact h
      · rename_i c ls hhead
        cases hrec : env.recursorOf? c with
        | none => simpa only [hrec] using h
        | some t =>
          cases hmajor : m.args[majorIndex t]? with
          | none => simpa only [hrec, hmajor] using h
          | some major =>
            simp only [hrec, hmajor] at h ⊢
            obtain ⟨major', hwhnf, h⟩ := bind_eq_some_iff.mp h
            refine bind_eq_some_iff.mpr ⟨major', ihWhnf _ _ hwhnf, ?_⟩
            cases hiota : iota? t m major' with
            | none => simpa only [hiota] using h
            | some m' =>
              simp only [hiota] at h ⊢
              exact ihCore _ _ h
      · exact h
    · rw [whnf] at h ⊢
      obtain ⟨m₁, hcore, h⟩ := bind_eq_some_iff.mp h
      refine bind_eq_some_iff.mpr ⟨m₁, ihCore _ _ hcore, ?_⟩
      cases hunfold : env.unfoldHead? m₁ with
      | none => simpa only [hunfold] using h
      | some m₂ =>
        simp only [hunfold] at h ⊢
        exact ihWhnf _ _ h

lemma whnfCore_mono (hle : fuel ≤ fuel') (h : env.whnfCore fuel m = some r) : env.whnfCore fuel' m = some r := by
  induction hle with
  | refl => exact h
  | step _ ih => exact (whnf_succ_of_fuel _).1 _ _ ih

lemma whnf_mono (hle : fuel ≤ fuel') (h : env.whnf fuel m = some r) : env.whnf fuel' m = some r := by
  induction hle with
  | refl => exact h
  | step _ ih => exact (whnf_succ_of_fuel _).2 _ _ ih

lemma whnfCore_unique {r' : Term} (h : env.whnfCore fuel m = some r) (h' : env.whnfCore fuel' m = some r') :
    r = r' := by
  have hmax := whnfCore_mono (Nat.le_max_left fuel fuel') h
  rw [whnfCore_mono (Nat.le_max_right fuel fuel') h'] at hmax
  exact (Option.some.inj hmax).symm

lemma whnf_unique {r' : Term} (h : env.whnf fuel m = some r) (h' : env.whnf fuel' m = some r') : r = r' := by
  have hmax := whnf_mono (Nat.le_max_left fuel fuel') h
  rw [whnf_mono (Nat.le_max_right fuel fuel') h'] at hmax
  exact (Option.some.inj hmax).symm

/-! ## Conversion -/

/-- Answers of the one test are answers of the other. -/
def TestKept (test test' : Term → Term → Option Bool) : Prop :=
  ∀ a b r, test a b = some r → test' a b = some r

lemma TestKept.allPairs {test test' : Term → Term → Option Bool} (h : TestKept test test')
    {as bs : List Term} {r : Bool} (hr : allPairs test as bs = some r) : allPairs test' as bs = some r := by
  induction as generalizing bs with
  | nil => exact hr
  | cons a as ih =>
    cases bs with
    | nil => exact hr
    | cons b bs =>
      obtain ⟨answer, htest, hr⟩ := bind_eq_some_iff.mp hr
      refine bind_eq_some_iff.mpr ⟨answer, h _ _ _ htest, ?_⟩
      cases answer with
      | false => exact hr
      | true => exact ih hr

lemma TestKept.spinesEq {test test' : Term → Term → Option Bool} (h : TestKept test test') :
    TestKept (spinesEq test) (spinesEq test') := by
  intro a b r hr
  unfold Env.spinesEq at hr ⊢
  split at hr
  · rename_i hheads
    rw [if_pos hheads]
    exact h.allPairs hr
  · rename_i hheads
    rw [if_neg hheads]
    exact hr

lemma compareWith_kept {test test' : Nat → Term → Term → Option Bool}
    {otherwise otherwise' : Term → Term → Option Bool} (htest : ∀ next, TestKept (test next) (test' next))
    (hotherwise : TestKept otherwise otherwise') (next : Nat) :
    TestKept (compareWith test otherwise next) (compareWith test' otherwise' next) := by
  intro a b r h
  induction a, b using Term.compare_cases with
  | sorts l l' => exact h
  | products x i t m x' i' t' m' | abstractions x t m x' t' m' =>
    obtain ⟨answer, hdomain, h⟩ := bind_eq_some_iff.mp h
    refine bind_eq_some_iff.mpr ⟨answer, htest _ _ _ _ hdomain, ?_⟩
    cases answer with
    | false => exact h
    | true => exact htest _ _ _ _ h
  | etaLeft x t m b hb =>
    rw [compareWith_etaLeft _ _ _ hb] at h ⊢
    exact htest _ _ _ _ h
  | etaRight a x t m ha =>
    rw [compareWith_etaRight _ _ _ ha] at h ⊢
    exact htest _ _ _ _ h
  | spines a b ha hb hab =>
    rw [compareWith_spines _ _ _ ha hb hab] at h ⊢
    obtain ⟨same, hspines, h⟩ := bind_eq_some_iff.mp h
    refine bind_eq_some_iff.mpr ⟨same, (htest next).spinesEq _ _ _ hspines, ?_⟩
    cases same with
    | false => exact hotherwise _ _ _ h
    | true => exact h

private lemma whnfUnfolded_succ {unfolded : Option Term} (h : env.whnfUnfolded fuel m unfolded = some r) :
    env.whnfUnfolded (fuel + 1) m unfolded = some r := by
  cases unfolded with
  | none => exact h
  | some m' => exact whnfCore_mono (Nat.le_succ fuel) h

private lemma isDefEq_succ_of_fuel (fuel : Nat) :
    (∀ next, TestKept (env.isDefEq fuel next) (env.isDefEq (fuel + 1) next)) ∧
    (∀ next, TestKept (env.isDefEqCore fuel next) (env.isDefEqCore (fuel + 1) next)) ∧
    (∀ next, TestKept (env.isDefEqDelta fuel next) (env.isDefEqDelta (fuel + 1) next)) := by
  induction fuel with
  | zero => simp [TestKept, isDefEq, isDefEqCore, isDefEqDelta]
  | succ fuel ih =>
    obtain ⟨ihTest, ihCore, ihDelta⟩ := ih
    refine ⟨fun next a b r h => ?_, fun next a b r h => ?_, fun next a b r h => ?_⟩
    · rw [isDefEq_succ] at h ⊢
      split at h
      · rename_i halpha
        rw [if_pos halpha]
        exact h
      · rename_i halpha
        rw [if_neg halpha]
        obtain ⟨a', ha, h⟩ := bind_eq_some_iff.mp h
        obtain ⟨b', hb, h⟩ := bind_eq_some_iff.mp h
        exact bind_eq_some_iff.mpr ⟨a', whnfCore_mono (Nat.le_succ _) ha,
          bind_eq_some_iff.mpr ⟨b', whnfCore_mono (Nat.le_succ _) hb, ihCore _ _ _ _ h⟩⟩
    · rw [isDefEqCore_succ] at h ⊢
      split at h
      · rename_i halpha
        rw [if_pos halpha]
        exact h
      · rename_i halpha
        rw [if_neg halpha]
        exact compareWith_kept ihTest (ihDelta next) next _ _ _ h
    · rw [isDefEqDelta_succ] at h ⊢
      split at h
      · rename_i hstuck
        rw [if_pos hstuck]
        exact h
      · rename_i hstuck
        rw [if_neg hstuck]
        obtain ⟨a', ha, h⟩ := bind_eq_some_iff.mp h
        obtain ⟨b', hb, h⟩ := bind_eq_some_iff.mp h
        exact bind_eq_some_iff.mpr ⟨a', whnfUnfolded_succ ha,
          bind_eq_some_iff.mpr ⟨b', whnfUnfolded_succ hb, ihCore _ _ _ _ h⟩⟩

lemma isDefEq_mono (hle : fuel ≤ fuel') {r : Bool} (h : env.isDefEq fuel next a b = some r) :
    env.isDefEq fuel' next a b = some r := by
  induction hle with
  | refl => exact h
  | step _ ih => exact (isDefEq_succ_of_fuel _).1 _ _ _ _ ih

lemma isDefEqCore_mono (hle : fuel ≤ fuel') {r : Bool} (h : env.isDefEqCore fuel next a b = some r) :
    env.isDefEqCore fuel' next a b = some r := by
  induction hle with
  | refl => exact h
  | @step fuel' _ ih => exact (isDefEq_succ_of_fuel fuel').2.1 next a b r ih

lemma isDefEq_unique {r r' : Bool} (h : env.isDefEq fuel next a b = some r)
    (h' : env.isDefEq fuel' next a b = some r') : r = r' := by
  have hmax := isDefEq_mono (Nat.le_max_left fuel fuel') h
  rw [isDefEq_mono (Nat.le_max_right fuel fuel') h'] at hmax
  exact (Option.some.inj hmax).symm

/-! ## Type checking -/

lemma yields_check_iff {expected : Term} : (env.check ps (fuel + 1) next Γ m expected).Yields () ↔
      ∃ A, (env.infer ps fuel next Γ m).Yields A ∧ env.isDefEq fuel next A expected = some true := by
  simp only [check, yields_bind, yields_ofOption]
  constructor
  · rintro ⟨A, hA, answer, hconv, h⟩
    cases answer with
    | false => simp at h
    | true => exact ⟨A, hA, hconv⟩
  · rintro ⟨A, hA, hconv⟩
    exact ⟨A, hA, true, hconv, by simp⟩

lemma yields_inferSort_iff {l : Level} : (env.inferSort ps (fuel + 1) next Γ m).Yields l ↔
      ∃ S, (env.infer ps fuel next Γ m).Yields S ∧ env.whnf fuel S = some (.sort l) := by
  simp only [inferSort, yields_bind, yields_ofOption]
  constructor
  · rintro ⟨S, hS, S', hwhnf, h⟩
    split at h
    · obtain rfl := yields_pure.mp h
      exact ⟨S, hS, hwhnf⟩
    · simp at h
  · rintro ⟨S, hS, hwhnf⟩
    exact ⟨S, hS, _, hwhnf, yields_pure.mpr rfl⟩

/-- The checker finds the type that a derivation gives, with all fuel from some amount on. -/
lemma Infers.exists_fuel {T : Term} (h : env.Infers ps next Γ m T) :
    ∃ enough, ∀ fuel, enough ≤ fuel → (env.infer ps fuel next Γ m).Yields T := by
  induction h with
  | free hget =>
    refine ⟨1, fun fuel hfuel => ?_⟩
    obtain ⟨fuel, rfl⟩ := Nat.exists_eq_add_of_le' hfuel
    simp [infer, hget]
  | sort hl =>
    refine ⟨1, fun fuel hfuel => ?_⟩
    obtain ⟨fuel, rfl⟩ := Nat.exists_eq_add_of_le' hfuel
    simp [infer, hl]
  | @const next Γ c ls d hget hkind hlen hls =>
    refine ⟨1, fun fuel hfuel => ?_⟩
    obtain ⟨fuel, rfl⟩ := Nat.exists_eq_add_of_le' hfuel
    simp only [infer, hget]
    exact yields_instantiateType.mpr ⟨hlen, hls, rfl⟩
  | ctor ht hk hlen hls =>
    refine ⟨1, fun fuel hfuel => ?_⟩
    obtain ⟨fuel, rfl⟩ := Nat.exists_eq_add_of_le' hfuel
    simp only [infer, ht, hk]
    exact yields_instantiateType.mpr ⟨hlen, hls, rfl⟩
  | @app next fuel₁ fuel₂ Γ f a F A t b x i _ hwhnf _ hconv ihf iha =>
    obtain ⟨nf, hf⟩ := ihf
    obtain ⟨na, ha⟩ := iha
    refine ⟨nf + na + fuel₁ + fuel₂ + 2, fun fuel hfuel => ?_⟩
    obtain ⟨fuel, rfl⟩ : ∃ n, fuel = n + 2 := ⟨fuel - 2, by omega⟩
    have hcheck := yields_check_iff.mpr
      ⟨A, ha fuel (by omega), isDefEq_mono (by omega : fuel₂ ≤ fuel) hconv⟩
    simp only [infer, yields_bind, yields_ofOption]
    refine ⟨F, hf (fuel + 1) (by omega), _, whnf_mono (by omega) hwhnf, ?_⟩
    simp [hcheck]
  | @lam next fuel₁ Γ x t b S B l _ hwhnf _ iht ihb =>
    obtain ⟨nt, ht⟩ := iht
    obtain ⟨nb, hb⟩ := ihb
    refine ⟨nt + nb + fuel₁ + 2, fun fuel hfuel => ?_⟩
    obtain ⟨fuel, rfl⟩ : ∃ n, fuel = n + 2 := ⟨fuel - 2, by omega⟩
    have hsort := yields_inferSort_iff.mpr ⟨S, ht fuel (by omega), whnf_mono (by omega) hwhnf⟩
    simp only [infer, yields_bind]
    exact ⟨l, hsort, B, hb (fuel + 1) (by omega), rfl⟩
  | @pi next fuel₁ fuel₂ Γ x i t b S S' l l' _ hwhnf _ hwhnf' iht ihb =>
    obtain ⟨nt, ht⟩ := iht
    obtain ⟨nb, hb⟩ := ihb
    refine ⟨nt + nb + fuel₁ + fuel₂ + 2, fun fuel hfuel => ?_⟩
    obtain ⟨fuel, rfl⟩ : ∃ n, fuel = n + 2 := ⟨fuel - 2, by omega⟩
    have hsort := yields_inferSort_iff.mpr ⟨S, ht fuel (by omega), whnf_mono (by omega) hwhnf⟩
    have hsort' := yields_inferSort_iff.mpr ⟨S', hb fuel (by omega), whnf_mono (by omega) hwhnf'⟩
    simp only [infer, yields_bind]
    exact ⟨l, hsort, l', hsort', rfl⟩

end Env

end ProofAssistant
