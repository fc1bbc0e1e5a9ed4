import ProofAssistant.Proofs.RecursorRule

/-!
# Reduction after a replacement

A term that reduces to a sort, a product, an abstraction or a constructor does so too after its hypotheses
have been replaced, and step by step in the same way (`Env.whnf_replace`).
-/

namespace ProofAssistant

open Term Option List

namespace Term

variable {m : Term}

/-- A replacement may put any term in its place. -/
def IsPlace : Term → Prop
  | .var _ | .free _ => True
  | _ => False

lemma head_replace (h : ¬ m.head.IsPlace) (s : Replacement) : (m.replace s).head = m.head.replace s := by
  induction m with
  | app f a ihf _ => exact ihf h
  | var i | free x => exact absurd trivial h
  | _ => rfl

lemma args_replace (h : ¬ m.head.IsPlace) (s : Replacement) : (m.replace s).args = m.args.map (·.replace s) := by
  induction m with
  | app f a ihf _ => rw [replace, args_app, args_app, ihf h, map_append]; rfl
  | var i | free x => exact absurd trivial h
  | _ => rfl

lemma isApp_replace (h : ¬ m.head.IsPlace) (s : Replacement) : (m.replace s).isApp = m.isApp := by
  cases m with
  | var i | free x => exact absurd trivial h
  | _ => rfl

/-- Contracting abstractions passes a replacement, unless that puts further ones at the head. -/
lemma beta_replace {as : List Term} (h : ¬ (m.beta as).head.IsPlace) (s : Replacement) :
    (m.beta as).replace s = (m.replace s).beta (as.map (·.replace s)) := by
  fun_induction beta m as with
  | case1 x t b a as ih =>
    rw [ih h, replace_instantiate]
    rfl
  | case2 m as hlam =>
    rw [head_apply] at h
    rw [replace_apply]
    cases as with
    | nil => cases m.replace s <;> rfl
    | cons a as =>
      cases m with
      | lam x t b => exact absurd rfl (hlam x t b a as rfl)
      | var i | free x => exact absurd trivial h
      | _ => rfl

end Term

namespace Env

variable {fuel : Nat} {m r m' : Term}

open InductiveSpec

variable {env : Env}

/-- No replacement makes the term reduce further: its head is neither replaced, nor a recursor that may be
given a constructor. -/
structure Settled (env : Env) (m : Term) : Prop where
  head : ¬ m.head.IsPlace
  recursor : ∀ c ls, m.head = .const c ls → env.recursorOf? c = none

lemma settled_pi (x : Name) (i : Bool) (t b : Term) : env.Settled (.pi x i t b) :=
  ⟨id, fun _ _ h => nomatch h⟩

/-- What a replacement can change does not reduce. -/
lemma whnfCore_of_isPlace (h : env.whnfCore fuel m = some r) (hm : m.head.IsPlace) : r = m := by
  cases fuel with
  | zero => exact nomatch h
  | succ fuel =>
    rw [whnfCore] at h
    cases hhead : m.head with
    | var i | free x => rw [hhead] at h; exact (Option.some.inj h).symm
    | _ => rw [hhead] at hm; exact hm.elim

lemma unfoldHead?_of_isPlace (hm : m.head.IsPlace) : env.unfoldHead? m = none := by
  unfold unfoldHead?
  split
  · rename_i hhead; rw [hhead] at hm; exact hm.elim
  · rfl

lemma whnf_of_isPlace (h : env.whnf fuel m = some r) (hm : m.head.IsPlace) : r = m := by
  cases fuel with
  | zero => exact nomatch h
  | succ fuel =>
    obtain ⟨m₁, hcore, hr⟩ := bind_eq_some_iff.mp h
    rw [whnfCore_of_isPlace hcore hm] at hr
    rw [unfoldHead?_of_isPlace hm] at hr
    exact (Option.some.inj hr).symm

/-- A recursor takes only constructors. -/
lemma head_of_iota? {t : InductiveType} {major : Term} (h : iota? t m major = some m') :
    ∃ family i n ls k, major.head = .ctor family i n ls ∧ t.ctors[i]? = some k := by
  unfold iota? at h
  split at h
  · rename_i family i n ls hmajor
    split at h
    · rename_i k hk
      exact ⟨family, i, n, ls, k, hmajor, hk⟩
    · exact nomatch h
  · exact nomatch h

lemma iota?_replace {t : InductiveType} {major : Term} (hm : ¬ m.head.IsPlace) (h : iota? t m major = some m')
    (hm' : ¬ m'.head.IsPlace) (s : Replacement) : iota? t (m.replace s) (major.replace s) = some (m'.replace s) := by
  obtain ⟨family, i, n, ls, k, hmajor, hk⟩ := head_of_iota? h
  have hplace : ¬ major.head.IsPlace := by rw [hmajor]; exact id
  have hmajor' : (major.replace s).head = .ctor family i n ls := by rw [head_replace hplace, hmajor]; rfl
  rw [iota?_of_ctor hmajor hk] at h
  rw [iota?_of_ctor hmajor' hk, args_replace hplace, args_replace hm, head_replace hm, length_map]
  split at h
  · rename_i hcond
    obtain ⟨minor, hminor, rfl⟩ := map_eq_some_iff.mp h
    rw [if_pos hcond, beta_replace hm' s, getElem?_map, hminor]
    simp only [map_some, map_append, map_drop, map_take, replace_apply,
      Constructor.map_calls (g := (·.replace s)) fun _ _ => rfl]
  · exact nomatch h

lemma unfoldHead?_replace_eq_none (hm : ¬ m.head.IsPlace) (h : env.unfoldHead? m = none) (s : Replacement) :
    env.unfoldHead? (m.replace s) = none := by
  unfold unfoldHead? at h ⊢
  rw [head_replace hm]
  cases hhead : m.head with
  | const c ls =>
    simp only [hhead, map_eq_none_iff] at h
    simp only [Term.replace, h, map_none]
  | var i | free x => rw [hhead] at hm; exact absurd trivial hm
  | _ => rfl

lemma settled_of_unfoldHead? (h : env.unfoldHead? m = some m') : env.Settled m := by
  unfold unfoldHead? at h
  split at h
  · rename_i c ls hhead
    obtain ⟨v, hv, _⟩ := map_eq_some_iff.mp h
    refine ⟨by rw [hhead]; exact id, fun c' ls' hc => ?_⟩
    obtain ⟨rfl, rfl⟩ := const.inj (hhead.symm.trans hc)
    cases contracts_of_unfoldConst? hv with
    | delta hget hkind _ => simp [recursorOf?, hget, hkind]
  · cases h

/-- Unfolding passes a replacement, since definitions have closed values. -/
lemma unfoldHead?_replace (henv : env.Admits noFree) (h : env.unfoldHead? m = some m') (hm' : ¬ m'.head.IsPlace)
    (s : Replacement) : env.unfoldHead? (m.replace s) = some (m'.replace s) := by
  have hm := (settled_of_unfoldHead? h).head
  unfold unfoldHead? at h ⊢
  split at h
  · rename_i c ls hhead
    obtain ⟨v, hv, rfl⟩ := map_eq_some_iff.mp h
    have hclosed : v.In noFree 0 := (contracts_of_unfoldConst? hv).in_scope henv trivial
    have hself : v.replace s = v :=
      hclosed.replace_eq_self fun _ hx => hx.elim
    rw [head_replace hm, hhead, args_replace hm, beta_replace hm', hself]
    simp only [Term.replace, hv, map_some]
  · cases h

private lemma whnf_replace_of_fuel (henv : env.Admits noFree) (s : Replacement) (fuel : Nat) :
    (∀ m r, env.whnfCore fuel m = some r → env.Settled r → env.whnfCore fuel (m.replace s) = some (r.replace s)) ∧
    (∀ m r, env.whnf fuel m = some r → env.Settled r → env.whnf fuel (m.replace s) = some (r.replace s)) := by
  induction fuel with
  | zero => exact ⟨by rintro _ _ ⟨⟩, by rintro _ _ ⟨⟩⟩
  | succ fuel ih =>
    obtain ⟨ihCore, ihWhnf⟩ := ih
    refine ⟨fun m r h hr => ?_, fun m r h hr => ?_⟩
    · have hplace : ¬ m.head.IsPlace := fun hm => hr.head (whnfCore_of_isPlace h hm ▸ hm)
      rw [whnfCore] at h ⊢
      rw [head_replace hplace, args_replace hplace, isApp_replace hplace]
      cases hhead : m.head with
      | lam x t b =>
        simp only [hhead, Term.replace] at h ⊢
        split at h
        · rename_i happ
          have hbeta : ¬ ((lam x t b).beta m.args).head.IsPlace :=
            fun hm => hr.head (whnfCore_of_isPlace h hm ▸ hm)
          rw [if_pos happ]
          have hcore := ihCore _ _ h hr
          rwa [beta_replace hbeta] at hcore
        · rename_i happ
          rw [if_neg happ, Option.some.inj h]
      | const c ls =>
        simp only [hhead, Term.replace] at h ⊢
        cases hrec : env.recursorOf? c with
        | none => simp only [hrec] at h ⊢; rw [Option.some.inj h]
        | some t =>
          simp only [hrec, getElem?_map] at h ⊢
          -- a recursor that stays at the head is not settled
          have hstuck : r ≠ m := by
            rintro rfl
            exact absurd (hr.recursor c ls hhead) (by simp [hrec])
          cases hmajor : m.args[majorIndex t]? with
          | none => simp only [hmajor] at h; exact absurd (Option.some.inj h).symm hstuck
          | some major =>
            simp only [hmajor, map_some] at h ⊢
            obtain ⟨major', hwhnf, h⟩ := bind_eq_some_iff.mp h
            cases hiota : iota? t m major' with
            | none => simp only [hiota] at h; exact absurd (Option.some.inj h).symm hstuck
            | some m' =>
              simp only [hiota] at h
              have hmajor' : env.Settled major' := by
                obtain ⟨_, _, _, _, _, hctor, _⟩ := head_of_iota? hiota
                exact ⟨by rw [hctor]; exact id, fun _ _ hc => by rw [hctor] at hc; cases hc⟩
              have hm' : ¬ m'.head.IsPlace := fun hm => hr.head (whnfCore_of_isPlace h hm ▸ hm)
              rw [ihWhnf _ _ hwhnf hmajor']
              simp only [bind_eq_bind, bind_some, iota?_replace hplace hiota hm']
              exact ihCore _ _ h hr
      | var i | free x => rw [hhead] at hplace; exact absurd trivial hplace
      | _ =>
        simp only [hhead, Term.replace] at h ⊢
        rw [Option.some.inj h]
    · obtain ⟨m₁, hcore, h⟩ := bind_eq_some_iff.mp h
      cases hunfold : env.unfoldHead? m₁ with
      | none =>
        rw [hunfold] at h
        obtain rfl := Option.some.inj h
        refine bind_eq_some_iff.mpr ⟨_, ihCore _ _ hcore hr, ?_⟩
        rw [unfoldHead?_replace_eq_none hr.head hunfold]
      | some m₂ =>
        rw [hunfold] at h
        have hplace : ¬ m₂.head.IsPlace := fun hm => hr.head (whnf_of_isPlace h hm ▸ hm)
        refine bind_eq_some_iff.mpr ⟨_, ihCore _ _ hcore (settled_of_unfoldHead? hunfold), ?_⟩
        rw [unfoldHead?_replace henv hunfold hplace]
        exact ihWhnf _ _ h hr

lemma whnf_replace (henv : env.Admits noFree) (h : env.whnf fuel m = some r) (hr : env.Settled r) (s : Replacement) :
    env.whnf fuel (m.replace s) = some (r.replace s) :=
  (whnf_replace_of_fuel henv s fuel).2 m r h hr

end Env

end ProofAssistant
