import Mathlib.Logic.Relation
import ProofAssistant.Proofs.Replacement
import ProofAssistant.Reduction

/-!
# Reduction steps

`Env.Contracts` lists the contractions: an abstraction on an argument (β), a definition (δ) and a
recursor on a constructor with all its arguments (ι). `Env.Step` contracts a function or an argument of
an application, so a reduction never goes under a binder.
-/

namespace ProofAssistant

open List Term

variable {t : InductiveType} {fuel n : Nat}

/-- The recursive calls on the fields of a constructor. -/
def Constructor.calls (k : Constructor) (recursor : Term) (fields : List Term) : List Term :=
  ((fields.zip k.recursive).filter Prod.snd).map fun (x, _) => recursor.app x

/-- What passes applications passes recursive calls. -/
lemma Constructor.map_calls {g : Term → Term} (hg : ∀ f a, g (.app f a) = .app (g f) (g a)) (k : Constructor)
    (recursor : Term) (fields : List Term) : (k.calls recursor fields).map g = k.calls (g recursor) (fields.map g) := by
  rw [calls, calls, zip_map_left, filter_map, map_map, map_map]
  exact map_congr_left fun x _ => hg recursor x.1

namespace Env

variable {c : Name} {ls : List Level} {m m' : Term} {S : Scope} {k : Nat}

/-- The contraction of a term at its root. -/
inductive Contracts (env : Env) : Term → Term → Prop
  | beta (x : Name) (t b a : Term) : Contracts env (.app (.lam x t b) a) (b.instantiate a)
  | delta {c : Name} {ls : List Level} {d : Decl} {value : Term} {height : Nat} :
    env.get? c = some d → d.kind = .definition value height → d.levelParams.length = ls.length →
    Contracts env (.const c ls) (value.instantiateLevelParams d.levelParams ls)
  | iota {c : Name} {ls ls' : List Level} {t : InductiveType} {i : Nat} {k : Constructor} {n : Name}
    {args params fields : List Term} {minor : Term} :
    env.recursorOf? c = some t → t.ctors[i]? = some k → args.length = majorIndex t →
    params.length = t.numParams → fields.length = k.numFields →
    args[t.numParams + 1 + i]? = some minor →
    Contracts env
      (.app ((const c ls).apply args) ((ctor t.name i n ls').apply (params ++ fields)))
      (minor.apply (fields ++ k.calls ((const c ls).apply args) fields))

/-- One step of weak reduction. -/
inductive Step (env : Env) : Term → Term → Prop
  | contract {m m' : Term} : env.Contracts m m' → Step env m m'
  | fn {f f' : Term} (a : Term) : Step env f f' → Step env (.app f a) (.app f' a)
  | arg (f : Term) {a a' : Term} : Step env a a' → Step env (.app f a) (.app f a')

/-- Weak reduction in any number of steps. -/
def Steps (env : Env) : Term → Term → Prop :=
  Relation.ReflTransGen env.Step

variable {env : Env}

namespace Steps

variable {m m' : Term}

lemma refl (m : Term) : env.Steps m m := Relation.ReflTransGen.refl

lemma trans {m'' : Term} (h : env.Steps m m') (h' : env.Steps m' m'') : env.Steps m m'' :=
  Relation.ReflTransGen.trans h h'

lemma contract (h : env.Contracts m m') : env.Steps m m' :=
  Relation.ReflTransGen.single (.contract h)

lemma fn {f f' : Term} (a : Term) (h : env.Steps f f') : env.Steps (.app f a) (.app f' a) :=
  Relation.ReflTransGen.lift (app · a) (fun _ _ => Step.fn a) _ _ h

lemma arg (f : Term) {a a' : Term} (h : env.Steps a a') : env.Steps (.app f a) (.app f a') :=
  Relation.ReflTransGen.lift (app f) (fun _ _ => Step.arg f) _ _ h

lemma apply (h : env.Steps m m') (as : List Term) : env.Steps (m.apply as) (m'.apply as) := by
  induction as generalizing m m' with
  | nil => exact h
  | cons a as ih => exact ih (h.fn a)

lemma beta (m : Term) (as : List Term) : env.Steps (m.apply as) (m.beta as) := by
  fun_induction Term.beta m as with
  | case1 x t b a as ih => exact ((contract (.beta x t b a)).apply as).trans ih
  | case2 m as h => exact refl _

end Steps

/-! ## Weak head normal forms -/

lemma contracts_of_unfoldConst? (h : env.unfoldConst? c ls = some m) : env.Contracts (.const c ls) m := by
  unfold unfoldConst? at h
  split at h
  · rename_i name params type value height hget
    split at h
    · rename_i hlen
      obtain rfl := Option.some.inj h
      exact .delta hget rfl hlen
    · simp at h
  · simp at h

lemma steps_of_unfoldHead? (h : env.unfoldHead? m = some m') : env.Steps m m' := by
  unfold unfoldHead? at h
  split at h
  · rename_i c ls hhead
    obtain ⟨v, hv, rfl⟩ := Option.map_eq_some_iff.mp h
    have hm := m.apply_head_args
    rw [hhead] at hm
    rw [← hm, args_apply]
    exact ((Steps.contract (contracts_of_unfoldConst? hv)).apply _).trans (.beta v m.args)
  · simp at h

/-- A term with an argument at place `n` is its head on the arguments before it, on that argument, and
on those after it. -/
lemma apply_args_split {a : Term} (h : m.args[n]? = some a) :
    ((m.head.apply (m.args.take n)).app a).apply (m.args.drop (n + 1)) = m := by
  obtain ⟨hn, hget⟩ := List.getElem?_eq_some_iff.mp h
  have hargs : m.args = m.args.take n ++ a :: m.args.drop (n + 1) := by
    rw [← hget, ← drop_eq_getElem_cons hn, take_append_drop]
  have hm := m.apply_head_args
  rw [hargs, apply_append] at hm
  exact hm

/-- A recursor on a scrutinee that has been reduced to a constructor. -/
lemma steps_of_iota? {major : Term} (hhead : m.head = .const c ls)
    (hrec : env.recursorOf? c = some t) (hargs : majorIndex t < m.args.length) (hiota : iota? t m major = some m') :
    env.Steps (((m.head.apply (m.args.take (majorIndex t))).app major).apply (m.args.drop (majorIndex t + 1))) m' := by
  unfold iota? at hiota
  split at hiota
  · rename_i family index n ls' hmajor
    split at hiota
    · rename_i k hk
      split at hiota
      · rename_i hcond
        obtain ⟨rfl, hlen⟩ := hcond
        obtain ⟨minor, hminor, rfl⟩ := Option.map_eq_some_iff.mp hiota
        obtain ⟨hidx, _⟩ := List.getElem?_eq_some_iff.mp hk
        have htake : (m.args.take (majorIndex t))[t.numParams + 1 + index]? = some minor := by
          rw [getElem?_take_of_lt (by unfold majorIndex; omega), hminor]
        have hlen' : (m.args.take (majorIndex t)).length = majorIndex t := by
          rw [length_take]
          omega
        have hsplit : major = (ctor t.name index n ls').apply
            (major.args.take t.numParams ++ major.args.drop t.numParams) := by
          rw [take_append_drop, ← hmajor, apply_head_args]
        have hstep : env.Steps ((m.head.apply (m.args.take (majorIndex t))).app major)
            (minor.apply (major.args.drop t.numParams ++
              k.calls (m.head.apply (m.args.take (majorIndex t))) (major.args.drop t.numParams))) := by
          conv => lhs; rw [hsplit]
          rw [hhead]
          exact .contract (.iota hrec hk hlen' (by simp; omega) (by simp; omega) htake)
        refine (hstep.apply _).trans ?_
        rw [← apply_append]
        exact .beta _ _
      · simp at hiota
    · simp at hiota
  · simp at hiota

lemma steps_of_recursor {major major' : Term} (hhead : m.head = .const c ls)
    (hrec : env.recursorOf? c = some t) (hmajor : m.args[majorIndex t]? = some major)
    (hsteps : env.Steps major major') (hiota : iota? t m major' = some m') : env.Steps m m' := by
  have hargs := (List.getElem?_eq_some_iff.mp hmajor).1
  have hmajorSteps := (Steps.arg (m.head.apply (m.args.take (majorIndex t))) hsteps).apply
    (m.args.drop (majorIndex t + 1))
  rw [apply_args_split hmajor] at hmajorSteps
  exact hmajorSteps.trans (steps_of_iota? hhead hrec hargs hiota)

private lemma steps_of_fuel (fuel : Nat) : (∀ m m', env.whnfCore fuel m = some m' → env.Steps m m') ∧
    (∀ m m', env.whnf fuel m = some m' → env.Steps m m') := by
  induction fuel with
  | zero => simp [whnfCore, whnf]
  | succ fuel ih =>
    refine ⟨fun m m' h => ?_, fun m m' h => ?_⟩
    · unfold whnfCore at h
      split at h
      · -- an abstraction at the head meets its arguments
        split at h
        · have hbeta : env.Steps (m.head.apply m.args) _ := .beta m.head m.args
          rw [apply_head_args] at hbeta
          exact hbeta.trans (ih.1 _ _ h)
        · exact Option.some.inj h ▸ .refl m
      · -- a constant: only a recursor whose scrutinee is there can go on
        rename_i c ls hhead
        split at h
        · rename_i t hrec
          split at h
          · rename_i major hmajor
            obtain ⟨major', hwhnf, h⟩ := Option.bind_eq_some_iff.mp h
            split at h
            · rename_i m₁ hiota
              exact (steps_of_recursor hhead hrec hmajor (ih.2 _ _ hwhnf) hiota).trans (ih.1 _ _ h)
            · exact Option.some.inj h ▸ .refl m
          · exact Option.some.inj h ▸ .refl m
        · exact Option.some.inj h ▸ .refl m
      · exact Option.some.inj h ▸ .refl m
    · unfold whnf at h
      obtain ⟨m₁, hcore, h⟩ := Option.bind_eq_some_iff.mp h
      split at h
      · rename_i m₂ hunfold
        exact ((ih.1 _ _ hcore).trans (steps_of_unfoldHead? hunfold)).trans (ih.2 _ _ h)
      · exact Option.some.inj h ▸ ih.1 _ _ hcore

lemma steps_of_whnfCore (h : env.whnfCore fuel m = some m') : env.Steps m m' :=
  (steps_of_fuel fuel).1 m m' h

lemma steps_of_whnf (h : env.whnf fuel m = some m') : env.Steps m m' :=
  (steps_of_fuel fuel).2 m m' h

/-! ## Scopes -/

/-- A scope that contains the values of the definitions it admits. -/
def Admits (env : Env) (S : Scope) : Prop :=
  ∀ c ls d value height, env.get? c = some d → d.kind = .definition value height →
    d.levelParams.length = ls.length → S.const c ls →
    (value.instantiateLevelParams d.levelParams ls).In S 0

lemma Contracts.in_scope (hS : env.Admits S) (h : env.Contracts m m') (hm : m.In S k) : m'.In S k := by
  cases h with
  | beta x t b a => exact hm.1.2.instantiate hm.2
  | delta hget hkind hlen => exact (hS _ _ _ _ _ hget hkind hlen hm).le (Nat.zero_le k)
  | iota _ _ _ _ _ hminor =>
    obtain ⟨hrec, hmajor⟩ := hm
    have hargs := (in_apply.mp hrec).2
    have hfields := (in_apply.mp hmajor).2
    rw [in_apply]
    refine ⟨hargs _ (mem_of_getElem? hminor), fun a ha => ?_⟩
    rcases mem_append.mp ha with ha | ha
    · exact hfields a (mem_append_right _ ha)
    · obtain ⟨⟨x, r⟩, hx, rfl⟩ := mem_map.mp ha
      have hx := (of_mem_zip (mem_filter.mp hx).1).1
      exact ⟨hrec, hfields x (mem_append_right _ hx)⟩

lemma Step.in_scope (hS : env.Admits S) (h : env.Step m m') (hm : m.In S k) : m'.In S k := by
  induction h with
  | contract h => exact h.in_scope hS hm
  | fn a _ ih => exact ⟨ih hm.1, hm.2⟩
  | arg f _ ih => exact ⟨hm.1, ih hm.2⟩

/-- What occurs after a reduction is admitted by every scope that the term is in and that contains the
values of its definitions. -/
lemma Steps.in_scope (hS : env.Admits S) (h : env.Steps m m') (hm : m.In S k) : m'.In S k := by
  induction h with
  | refl => exact hm
  | tail _ h ih => exact h.in_scope hS ih

end Env

end ProofAssistant
