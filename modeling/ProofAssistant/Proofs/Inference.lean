import ProofAssistant.Proofs.Answers
import ProofAssistant.Proofs.Replacement

/-!
# Runs of the type checker

`Env.Infers` relates a term to the type that the checker finds, one rule for each kind of term, without the fuel. A run
of `Env.infer` gives such a derivation (`Env.infers_of_infer`), and what holds of every accepted term is shown by
induction on it. The first such fact is that an accepted term is in scope (`Env.Infers.in_scope`).
-/

namespace ProofAssistant

namespace Env

variable {fuel next k : Nat} {Γ : Context} {m T : Term} {P : Id → Prop}

open Fueled

/-- The checker finds the type `T` for `m`. Under a binder, `next` is the number of the hypothesis that
the body is opened with. -/
inductive Infers (env : Env) (ps : List Name) : (next : Nat) → Context → (m T : Term) → Prop
  | free {next : Nat} {Γ : Context} {x : Id} {h : Local} : Γ.get? x = some h →
    Infers env ps next Γ (.free x) h.type
  | sort {next : Nat} {Γ : Context} {l : Level} : l.Admitted ps →
    Infers env ps next Γ (.sort l) (.sort (.succ l))
  | const {next : Nat} {Γ : Context} {c : Name} {ls : List Level} {d : Decl} : env.get? c = some d →
    (∀ t i, d.kind ≠ .constructor t i) → d.levelParams.length = ls.length →
    (∀ l ∈ ls, l.Admitted ps) →
    Infers env ps next Γ (.const c ls) (d.type.instantiateLevelParams d.levelParams ls)
  | ctor {next : Nat} {Γ : Context} {family : Name} {i : Nat} {n : Name} {ls : List Level}
    {t : InductiveType} {k : Constructor} : env.inductive? family = some t → t.ctors[i]? = some k →
    t.levelParams.length = ls.length → (∀ l ∈ ls, l.Admitted ps) →
    Infers env ps next Γ (.ctor family i n ls) (k.type.instantiateLevelParams t.levelParams ls)
  | app {next fuel fuel' : Nat} {Γ : Context} {f a F A t b : Term} {x : Name} {i : Bool} :
    Infers env ps next Γ f F → env.whnf fuel F = some (.pi x i t b) →
    Infers env ps next Γ a A → env.isDefEq fuel' next A t = some true →
    Infers env ps next Γ (.app f a) (b.instantiate a)
  | lam {next fuel : Nat} {Γ : Context} {x : Name} {t b S B : Term} {l : Level} :
    Infers env ps next Γ t S → env.whnf fuel S = some (.sort l) →
    Infers env ps (next + 1) (Γ.add (.new next x t)) (b.instantiate (Local.new next x t).term) B →
    Infers env ps next Γ (.lam x t b) (.pi x false t (B.close [(Local.new next x t).id] 0))
  | pi {next fuel fuel' : Nat} {Γ : Context} {x : Name} {i : Bool} {t b S S' : Term} {l l' : Level} :
    Infers env ps next Γ t S → env.whnf fuel S = some (.sort l) →
    Infers env ps (next + 1) (Γ.add (.new next x t)) (b.instantiate (Local.new next x t).term) S' →
    env.whnf fuel' S' = some (.sort l') →
    Infers env ps next Γ (.pi x i t b) (.sort (.imax l l'))

/-- The checker finds that `m` is a type in the sort of level `l`. -/
def InfersSort (env : Env) (ps : List Name) (next : Nat) (Γ : Context) (m : Term) (l : Level) : Prop :=
  ∃ S fuel, env.Infers ps next Γ m S ∧ env.whnf fuel S = some (.sort l)

/-- The checker finds that the type of `m` is convertible to `T`. -/
def Checks (env : Env) (ps : List Name) (next : Nat) (Γ : Context) (m T : Term) : Prop :=
  ∃ A fuel, env.Infers ps next Γ m A ∧ env.isDefEq fuel next A T = some true

variable {env : Env} {ps : List Name}

private lemma infers_of_fuel (fuel : Nat) :
    (∀ next Γ m T, (env.infer ps fuel next Γ m).Yields T → env.Infers ps next Γ m T) ∧
    (∀ next Γ m l, (env.inferSort ps fuel next Γ m).Yields l → env.InfersSort ps next Γ m l) ∧
    (∀ next Γ m T, (env.check ps fuel next Γ m T).Yields () → env.Checks ps next Γ m T) := by
  induction fuel with
  | zero => simp [infer, inferSort, check]
  | succ fuel ih =>
    obtain ⟨ihInfer, ihSort, ihCheck⟩ := ih
    refine ⟨fun next Γ m T h => ?_, fun next Γ m l h => ?_, fun next Γ m T h => ?_⟩
    · cases m with
      | var i => simp [infer] at h
      | hole h' d => simp [infer] at h
      | free x =>
        simp only [infer] at h
        split at h
        · rename_i y hget
          exact yields_pure.mp h ▸ .free hget
        · simp at h
      | sort l =>
        simp only [infer, yields_bind, yields_checkLevel, yields_pure] at h
        obtain ⟨_, hl, rfl⟩ := h
        exact .sort hl
      | const c ls =>
        simp only [infer] at h
        split at h
        · simp at h
        · rename_i d hget
          split at h
          · simp at h
          · rename_i hkind
            obtain ⟨hlen, hls, rfl⟩ := yields_instantiateType.mp h
            exact .const hget hkind hlen hls
      | ctor family i n ls =>
        simp only [infer] at h
        split at h
        · simp at h
        · rename_i t ht
          split at h
          · simp at h
          · rename_i k hk
            obtain ⟨hlen, hls, rfl⟩ := yields_instantiateType.mp h
            exact .ctor ht hk hlen hls
      | app f a =>
        simp only [infer, yields_bind, yields_ofOption] at h
        obtain ⟨F, hF, F', hwhnf, h⟩ := h
        split at h
        · rename_i x i t b
          simp only [yields_bind, yields_pure] at h
          obtain ⟨_, hcheck, rfl⟩ := h
          obtain ⟨A, fuel', hA, hconv⟩ := ihCheck _ _ _ _ hcheck
          exact .app (ihInfer _ _ _ _ hF) hwhnf hA hconv
        · simp at h
      | lam x t b =>
        simp only [infer, yields_bind, yields_pure] at h
        obtain ⟨l, hl, B, hB, rfl⟩ := h
        obtain ⟨S, fuel', hS, hwhnf⟩ := ihSort _ _ _ _ hl
        exact .lam hS hwhnf (ihInfer _ _ _ _ hB)
      | pi x i t b =>
        simp only [infer, yields_bind, yields_pure] at h
        obtain ⟨l, hl, l', hl', rfl⟩ := h
        obtain ⟨S, fuel₁, hS, hwhnf⟩ := ihSort _ _ _ _ hl
        obtain ⟨S', fuel₂, hS', hwhnf'⟩ := ihSort _ _ _ _ hl'
        exact .pi hS hwhnf hS' hwhnf'
    · simp only [inferSort, yields_bind, yields_ofOption] at h
      obtain ⟨S, hS, S', hwhnf, h⟩ := h
      split at h
      · rename_i l'
        obtain rfl := yields_pure.mp h
        exact ⟨S, fuel, ihInfer _ _ _ _ hS, hwhnf⟩
      · simp at h
    · simp only [check, yields_bind, yields_ofOption] at h
      obtain ⟨A, hA, answer, hconv, h⟩ := h
      cases answer with
      | false => simp at h
      | true => exact ⟨A, fuel, ihInfer _ _ _ _ hA, hconv⟩

lemma infers_of_infer (h : (env.infer ps fuel next Γ m).Yields T) : env.Infers ps next Γ m T :=
  (infers_of_fuel fuel).1 next Γ m T h

lemma infersSort_of_inferSort {l : Level} (h : (env.inferSort ps fuel next Γ m).Yields l) :
    env.InfersSort ps next Γ m l :=
  (infers_of_fuel fuel).2.1 next Γ m l h

lemma checks_of_check (h : (env.check ps fuel next Γ m T).Yields ()) : env.Checks ps next Γ m T :=
  (infers_of_fuel fuel).2.2 next Γ m T h

/-! ## Accepted terms are in scope -/

/-- Hypotheses that satisfy `P`, admitted levels, and declared constants and constructors with the right number of
levels. -/
def scope (env : Env) (ps : List Name) (P : Id → Prop) : Scope where
  free := P
  level := Level.Admitted ps
  const c ls :=
    (∃ d, env.get? c = some d ∧ d.levelParams.length = ls.length) ∧ ∀ l ∈ ls, l.Admitted ps
  ctor family i ls :=
    (∃ t, env.inductive? family = some t ∧ i < t.ctors.length ∧ t.levelParams.length = ls.length) ∧
      ∀ l ∈ ls, l.Admitted ps
  hole _ := False

/-- Maps that agree on admitted levels act alike on terms that have no others. -/
lemma mapLevels_congr_of_in (hm : m.In (env.scope ps P) k) {f g : Level → Level}
    (h : ∀ l, l.Admitted ps → f l = g l) : m.mapLevels f = m.mapLevels g :=
  Term.mapLevels_congr hm h (fun _ _ hc l hl => h l (hc.2 l hl)) fun _ _ _ hc l hl => h l (hc.2 l hl)

/-- Levels for the parameters of arguments are put into the arguments. -/
lemma mapLevels_instantiateLevelParams (hm : m.In (env.scope ps P) k) {ls : List Level}
    (hlen : ps.length = ls.length) (σ : Name → Level) :
    (m.instantiateLevelParams ps ls).mapLevels (·.put σ) = m.instantiateLevelParams ps (ls.map (·.put σ)) := by
  rw [Term.instantiateLevelParams_eq_mapLevels, Term.instantiateLevelParams_eq_mapLevels, Term.mapLevels_mapLevels]
  exact mapLevels_congr_of_in hm fun l hl => hl.put_instantiateParams hlen σ

lemma instantiateLevelParams_comp (hm : m.In (env.scope ps P) k) {ls : List Level} (hlen : ps.length = ls.length)
    (qs : List Name) (bs : List Level) : (m.instantiateLevelParams ps ls).mapLevels (·.instantiateParams qs bs) =
      m.instantiateLevelParams ps (ls.map (·.instantiateParams qs bs)) :=
  mapLevels_instantiateLevelParams hm hlen (Level.lookupParam qs bs)

lemma below_opened {b : Term} (hb : b.In { free := fun y => y.number < next } (k + 1)) (x : Name) (t : Term) :
    (b.instantiate (Local.new next x t).term).In { free := fun y => y.number < next + 1 } k :=
  (hb.widen { free := fun _ hy => Nat.lt_succ_of_lt hy }).instantiate (Nat.lt_succ_self next)

/-- The hypotheses in a term that is accepted have numbers below `next` before it is opened. -/
lemma Infers.in_scope (h : env.Infers ps next Γ m T) (hm : m.In { free := fun x => x.number < next } k) :
    m.In (env.scope ps (· ∈ Γ.ids)) 0 := by
  induction h generalizing k with
  | @free _ Γ x h hget =>
    have hx : h.id = x := by simpa using List.find?_some hget
    exact hx ▸ List.mem_map_of_mem (List.mem_reverse.mp (List.mem_of_find?_eq_some hget))
  | sort hl => exact hl
  | const hget _ hlen hls => exact ⟨⟨_, hget, hlen⟩, hls⟩
  | ctor ht hk hlen hls => exact ⟨⟨_, ht, (List.getElem?_eq_some_iff.mp hk).1, hlen⟩, hls⟩
  | app _ _ _ _ ihf iha => exact ⟨ihf hm.1, iha hm.2⟩
  | @lam next _ Γ x t b _ _ _ _ _ _ iht ihb | @pi next _ _ Γ x _ t b _ _ _ _ _ _ _ _ iht ihb =>
    refine ⟨iht hm.1, ?_⟩
    have hbody := (ihb (below_opened hm.2 x t)).of_instantiate_free hm.2 (Nat.lt_irrefl next)
    refine hbody.widen { free := fun y hy => ?_ }
    obtain ⟨hy, hne⟩ : y ∈ (Γ.add (.new next x t)).ids ∧ y ≠ (Local.new next x t).id := hy
    show y ∈ Γ.ids
    simpa [Context.ids, hne] using hy

end Env

end ProofAssistant
