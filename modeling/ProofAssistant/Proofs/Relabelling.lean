import ProofAssistant.Proofs.Comparison
import ProofAssistant.Proofs.Telescope
import ProofAssistant.Proofs.Steps

/-!
# Relabelling

`Term.relabel ρ f` gives other identities to the hypotheses of a term and maps its levels. It passes the
operations on terms, and reduction: `Env.Relabels.whnf`, where the relabelled term may also be reduced in
another environment, as long as that one unfolds the constants of the term alike (`Env.Relabels`).
-/

namespace ProofAssistant

open Option Term List Env

namespace Term

/-- Gives other identities to the hypotheses and maps the levels. -/
def relabel (ρ : Id → Id) (f : Level → Level) : Term → Term
  | .var i => .var i
  | .sort l => .sort (f l)
  | .const c ls => .const c (ls.map f)
  | .ctor t i c ls => .ctor t i c (ls.map f)
  | .app g a => .app (g.relabel ρ f) (a.relabel ρ f)
  | .lam x t b => .lam x (t.relabel ρ f) (b.relabel ρ f)
  | .pi x i t b => .pi x i (t.relabel ρ f) (b.relabel ρ f)
  | .free x => .free (ρ x)
  | .hole h d => .hole h d

end Term

/-- The replacement that gives other identities to the hypotheses. -/
def Replacement.identities (ρ : Id → Id) : Replacement := ⟨.var, fun x => .free (ρ x)⟩

namespace Term

variable (ρ : Id → Id) (f : Level → Level)
variable {S : Scope} {k : Nat} {m : Term}

lemma up_identities : (Replacement.identities ρ).up = .identities ρ := by
  ext i
  · cases i <;> rfl
  · rfl

lemma relabel_eq_replace (m : Term) : m.relabel ρ f = (m.mapLevels f).replace (.identities ρ) := by
  induction m with
  | app g a ihg iha => rw [relabel, ihg, iha, mapLevels, replace]
  | lam x t b iht ihb | pi x _ t b iht ihb => rw [relabel, iht, ihb, mapLevels, replace, up_identities]
  | _ => rfl

lemma relabel_id_left (m : Term) : m.relabel id f = m.mapLevels f := by
  rw [relabel_eq_replace]
  exact replace_id _

/-- Relabellings that agree on the hypotheses of a scope act alike on its terms. -/
lemma relabel_congr (hm : m.In S k) {ρ ρ' : Id → Id} (h : ∀ x, S.free x → ρ x = ρ' x) :
    m.relabel ρ f = m.relabel ρ' f := by
  rw [relabel_eq_replace, relabel_eq_replace]
  exact replace_congr (hm.mapLevels_free f) (fun _ _ => rfl) fun x hx => congrArg free (h x hx)

lemma relabel_instantiate (b a : Term) :
    (b.instantiate a).relabel ρ f = (b.relabel ρ f).instantiate (a.relabel ρ f) := by
  simp only [relabel_eq_replace, mapLevels_instantiate, replace_instantiate, up_identities]

@[simp] lemma relabel_apply (m : Term) (as : List Term) :
    (m.apply as).relabel ρ f = (m.relabel ρ f).apply (as.map (·.relabel ρ f)) :=
  map_apply (fun _ _ => rfl) m as

@[simp] lemma head_relabel (m : Term) : (m.relabel ρ f).head = m.head.relabel ρ f := by
  induction m with
  | app g a ihg _ => rw [relabel, head, head, ihg]
  | _ => rfl

@[simp] lemma args_relabel (m : Term) : (m.relabel ρ f).args = m.args.map (·.relabel ρ f) := by
  induction m with
  | app g a ihg _ => rw [relabel, args_app, args_app, ihg, map_append, map_singleton]
  | _ => rfl

@[simp] lemma isApp_relabel (m : Term) : (m.relabel ρ f).isApp = m.isApp := by
  cases m <;> rfl

lemma relabel_beta (m : Term) (as : List Term) :
    (m.beta as).relabel ρ f = (m.relabel ρ f).beta (as.map (·.relabel ρ f)) := by
  fun_induction beta m as with
  | case1 x t b a as ih => rw [ih, relabel_instantiate, map_cons, relabel, beta]
  | case2 m as h =>
    rw [relabel_apply]
    cases m with
    | lam x t b =>
      cases as with
      | nil => rfl
      | cons a as => exact absurd rfl (h x t b a as rfl)
    | _ => cases as <;> rfl

lemma In.relabel {S' : Scope} (hm : m.In S k) (hfree : ∀ x, S.free x → S'.free (ρ x))
    (hhole : ∀ h, S.hole h → S'.hole h) (hlevel : ∀ l, S.level l → S'.level (f l))
    (hconst : ∀ c ls, S.const c ls → S'.const c (ls.map f)) (hctor : ∀ t i ls, S.ctor t i ls → S'.ctor t i (ls.map f)) :
    (m.relabel ρ f).In S' k := by
  rw [relabel_eq_replace]
  have hlevels : (m.mapLevels f).In { S' with free := S.free } k := hm.mapLevels (fun _ h => h) hhole hlevel hconst hctor
  exact hlevels.replace { free := fun _ h => h.elim } (fun _ hi => hi) hfree

lemma relabel_close (hm : m.In S k) {x : Id} (hx : ∀ y, S.free y → ρ y = ρ x → y = x) :
    (m.close [x] 0).relabel ρ f = (m.relabel ρ f).close [ρ x] 0 := by
  rw [close_eq_replace, close_eq_replace, relabel_eq_replace, relabel_eq_replace, mapLevels_replace,
    replace_replace, replace_replace]
  refine replace_congr (hm.mapLevels_free f) (fun i _ => rfl) fun y hy => ?_
  by_cases hyx : y = x
  · simp [Replacement.closing, Replacement.identities, hyx, mapLevels, replace]
  · have hρ : ρ y ≠ ρ x := fun h => hyx (hx y hy h)
    simp [Replacement.closing, Replacement.identities, Ne.symm hyx, hρ.symm, mapLevels, replace]

end Term

/-! ## Reduction -/

namespace Env

variable {m a b : Term} {k k' : Nat}

/-- The constants of the scope unfold in the second environment, at the mapped levels, to what they
unfold to in the first one. -/
structure Relabels (env env' : Env) (S : Scope) (f : Level → Level) : Prop where
  recursor : ∀ c ls, S.const c ls → env'.recursorOf? c = env.recursorOf? c
  height : ∀ c ls, S.const c ls → env'.constHeight c = env.constHeight c
  unfold : ∀ c ls, S.const c ls → ∀ ρ, env'.unfoldConst? c (ls.map f) = (env.unfoldConst? c ls).map (·.relabel ρ f)

lemma iota?_of_ctor {t : InductiveType} {major : Term} {family n : Name} {i : Nat} {ls : List Level}
    {k : Constructor} (hhead : major.head = .ctor family i n ls) (hk : t.ctors[i]? = some k) :
    iota? t m major =
      if family = t.name ∧ major.args.length = t.numParams + k.numFields then
        (m.args[t.numParams + 1 + i]?).map (·.beta (major.args.drop t.numParams ++
          k.calls (m.head.apply (m.args.take (majorIndex t))) (major.args.drop t.numParams) ++
          m.args.drop (majorIndex t + 1)))
      else none := by
  simp only [iota?, hhead, hk]
  rfl

lemma iota?_relabel (ρ : Id → Id) (f : Level → Level) (t : InductiveType) (m major : Term) :
    iota? t (m.relabel ρ f) (major.relabel ρ f) = (iota? t m major).map (·.relabel ρ f) := by
  have hhead := major.head_relabel ρ f
  cases hmajor : major.head with
  | ctor family i n ls =>
    rw [hmajor] at hhead
    cases hk : t.ctors[i]? with
    | none => simp only [iota?, hhead, hmajor, hk, relabel, map_none]
    | some k =>
      rw [iota?_of_ctor hhead hk, iota?_of_ctor hmajor hk]
      simp only [args_relabel, head_relabel, length_map]
      split
      · rw [getElem?_map, Option.map_map, Option.map_map]
        congr 1
        funext minor
        simp only [Function.comp_apply, relabel_beta, map_append, map_drop, map_take,
          relabel_apply, Constructor.map_calls (g := (·.relabel ρ f)) fun _ _ => rfl]
      · rfl
  | _ =>
    simp only [iota?, hhead, hmajor, relabel, map_none]

variable {env env' : Env} {S : Scope} {f : Level → Level}

section

variable (h : env.Relabels env' S f)
include h

lemma Relabels.unfoldHead? (hm : m.In S k) (ρ : Id → Id) :
    env'.unfoldHead? (m.relabel ρ f) = (env.unfoldHead? m).map (·.relabel ρ f) := by
  have hhead := m.head_relabel ρ f
  have hin := hm.head_args.1
  cases hm' : m.head with
  | const c ls =>
    rw [hm'] at hhead hin
    simp only [Env.unfoldHead?, hhead, hm', Term.relabel, h.unfold c ls hin ρ, Option.map_map, Term.args_relabel]
    congr 1
    funext v
    exact (v.relabel_beta ρ f m.args).symm
  | _ =>
    simp only [Env.unfoldHead?, hhead, hm', Term.relabel, Option.map_none]

lemma Relabels.headHeight (hm : m.In S k) (ρ : Id → Id) :
    env'.headHeight (m.relabel ρ f) = env.headHeight m := by
  have hhead := m.head_relabel ρ f
  have hin := hm.head_args.1
  cases hm' : m.head with
  | const c ls =>
    rw [hm'] at hhead hin
    simp only [Env.headHeight, hhead, hm', Term.relabel, h.height c ls hin]
  | _ =>
    simp only [Env.headHeight, hhead, hm', Term.relabel]

private lemma Relabels.whnf_of_fuel (hS : env.Admits S) (ρ : Id → Id) (fuel : Nat) :
    (∀ k m, m.In S k → env'.whnfCore fuel (m.relabel ρ f) = (env.whnfCore fuel m).map (·.relabel ρ f)) ∧
    (∀ k m, m.In S k → env'.whnf fuel (m.relabel ρ f) = (env.whnf fuel m).map (·.relabel ρ f)) := by
  induction fuel with
  | zero => exact ⟨fun _ _ _ => rfl, fun _ _ _ => rfl⟩
  | succ fuel ih =>
    obtain ⟨ihCore, ihWhnf⟩ := ih
    refine ⟨fun k m hm => ?_, fun k m hm => ?_⟩
    · have hhead := m.head_relabel ρ f
      obtain ⟨hinHead, hinArgs⟩ := hm.head_args
      rw [whnfCore, whnfCore, isApp_relabel, args_relabel]
      cases hm' : m.head with
      | lam x t b =>
        rw [hm'] at hhead hinHead
        simp only [hhead, relabel]
        split
        · have hbeta := ihCore k _ (hinHead.beta hinArgs)
          rw [relabel_beta] at hbeta
          exact hbeta
        · rfl
      | const c ls =>
        rw [hm'] at hhead hinHead
        simp only [hhead, relabel, h.recursor c ls hinHead]
        cases hrec : env.recursorOf? c with
        | none => rfl
        | some t =>
          simp only [getElem?_map]
          cases hmajor : m.args[majorIndex t]? with
          | none => rfl
          | some major =>
            simp only [map_some]
            rw [ihWhnf k major (hinArgs _ (mem_of_getElem? hmajor))]
            cases hwhnf : env.whnf fuel major with
            | none => rfl
            | some major' =>
              simp only [map_some, bind_eq_bind, bind_some, iota?_relabel]
              cases hiota : iota? t m major' with
              | none => rfl
              | some m' =>
                have hsteps := steps_of_recursor hm' hrec hmajor (steps_of_whnf hwhnf) hiota
                exact ihCore k m' (hsteps.in_scope hS hm)
      | _ =>
        rw [hm'] at hhead
        simp only [hhead, relabel, map_some]
    · rw [whnf, whnf, ihCore k m hm]
      cases hcore : env.whnfCore fuel m with
      | none => rfl
      | some m₁ =>
        have hm₁ := (steps_of_whnfCore hcore).in_scope hS hm
        simp only [map_some, bind_eq_bind, bind_some, h.unfoldHead? hm₁]
        cases hunfold : env.unfoldHead? m₁ with
        | none => rfl
        | some m₂ => exact ihWhnf k m₂ ((steps_of_unfoldHead? hunfold).in_scope hS hm₁)

lemma Relabels.whnfCore (hS : env.Admits S) (hm : m.In S k) (ρ : Id → Id) (fuel : Nat) :
    env'.whnfCore fuel (m.relabel ρ f) = (env.whnfCore fuel m).map (·.relabel ρ f) :=
  (h.whnf_of_fuel hS ρ fuel).1 k m hm

lemma Relabels.whnf (hS : env.Admits S) (hm : m.In S k) (ρ : Id → Id) (fuel : Nat) :
    env'.whnf fuel (m.relabel ρ f) = (env.whnf fuel m).map (·.relabel ρ f) :=
  (h.whnf_of_fuel hS ρ fuel).2 k m hm

lemma Relabels.unfoldBeside? (ha : a.In S k) (hb : b.In S k') (ρ : Id → Id) :
    env'.unfoldBeside? (a.relabel ρ f) (b.relabel ρ f) = (env.unfoldBeside? a b).map (·.relabel ρ f) := by
  rw [Env.unfoldBeside?, Env.unfoldBeside?, h.headHeight ha, h.headHeight hb, h.unfoldHead? ha]
  split <;> rfl

lemma Relabels.stuck_iff (ha : a.In S k) (hb : b.In S k') (ρ : Id → Id) :
    env'.Stuck (a.relabel ρ f) (b.relabel ρ f) ↔ env.Stuck a b := by
  rw [Stuck, Stuck, h.headHeight ha, h.headHeight hb, h.unfoldBeside? ha hb, h.unfoldBeside? hb ha,
    isNone_map, isNone_map]

lemma Relabels.whnfUnfolded (hS : env.Admits S) (ha : a.In S k) (hb : b.In S k')
    (ρ : Id → Id) (fuel : Nat) :
    env'.whnfUnfolded fuel (a.relabel ρ f) (env'.unfoldBeside? (a.relabel ρ f) (b.relabel ρ f)) =
      (env.whnfUnfolded fuel a (env.unfoldBeside? a b)).map (·.relabel ρ f) := by
  rw [h.unfoldBeside? ha hb]
  cases hunfold : env.unfoldBeside? a b with
  | none => rfl
  | some a' =>
    have hsteps : env.unfoldHead? a = some a' := by
      unfold Env.unfoldBeside? at hunfold
      split at hunfold
      · exact hunfold
      · exact nomatch hunfold
    exact h.whnfCore hS ((steps_of_unfoldHead? hsteps).in_scope hS ha) ρ fuel

end

/-- What a term is compared as after unfolding is in its scope. -/
lemma whnfUnfolded_in (hS : env.Admits S) {fuel : Nat} {a' : Term} (ha : a.In S k)
    (h : env.whnfUnfolded fuel a (env.unfoldBeside? a b) = some a') : a'.In S k := by
  unfold whnfUnfolded unfoldBeside? at h
  split at h
  · cases hunfold : env.unfoldHead? a with
    | none =>
      rw [hunfold] at h
      exact Option.some.inj h ▸ ha
    | some m =>
      rw [hunfold] at h
      exact (steps_of_whnfCore h).in_scope hS ((steps_of_unfoldHead? hunfold).in_scope hS ha)
  · exact Option.some.inj h ▸ ha

end Env

end ProofAssistant
