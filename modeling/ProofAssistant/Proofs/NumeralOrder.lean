import ProofAssistant.Prelude
import ProofAssistant.Proofs.InstancePrecedence
import ProofAssistant.Proofs.Occurrences
import ProofAssistant.Proofs.RecursorRule
import ProofAssistant.Proofs.SessionRuns
import ProofAssistant.Proofs.TacticAlphabet

/-!
# Inequalities of numerals

The tactic `decide` proves the inequalities between numerals that hold, and fails at the others
(`Elaborator.decide_le_exact`). The proof steps from the smaller numeral to the larger one, and the kernel finds the
inequality itself as its type. Of the environment it matters only what the prelude declares about numbers
(`Env.OrdersNumbers`), and additions do not take this away.
-/

namespace ProofAssistant

open FreshM

namespace Term

/-- The type of natural numbers. -/
def nat : Term :=
  .const ⟨"Nat"⟩ []

/-- The successor of a number. -/
def succ (m : Term) : Term :=
  .app (.ctor ⟨"Nat"⟩ 1 ⟨"Nat.succ"⟩ []) m

/-- A number as a term. -/
def numeral : Nat → Term
  | 0 => .ctor ⟨"Nat"⟩ 0 ⟨"Nat.zero"⟩ []
  | n + 1 => (numeral n).succ

/-- A number is at most another. -/
def le (a b : Term) : Term :=
  (Term.const ⟨"Nat.le"⟩ []).apply [a, b]

@[simp] lemma looseBound_numeral (n : Nat) : (numeral n).looseBound = 0 := by
  induction n with
  | zero => rfl
  | succ n ih => simp [numeral, succ, looseBound, ih]

lemma hasHole_numeral (n : Nat) : (numeral n).hasHole = false ∧ (numeral n).anyLevel Level.hasMVar = false := by
  induction n with
  | zero => exact ⟨rfl, rfl⟩
  | succ n ih => simp_all [numeral, succ, hasHole, anyLevel]

lemma numeral?_numeral (n : Nat) : (numeral n).numeral? = some n := by
  induction n with
  | zero => rfl
  | succ n ih => simp [numeral, succ, numeral?, ih]

@[simp] lemma lift_numeral (i n : Nat) : (numeral n).lift i 0 = numeral n :=
  lift_of_looseBound (looseBound_numeral n) i

end Term

/-- Each step is one from the bound before it. -/
lemma Decider.leProof_succ (lhs : Term) (steps : Nat) : leProof lhs (steps + 1) = ((leProof lhs steps).1.succ,
      (Term.const ⟨"Nat.le_step"⟩ []).apply [lhs, (leProof lhs steps).1, (leProof lhs steps).2]) :=
  rfl

lemma Decider.bound_leProof (m steps : Nat) : (leProof (.numeral m) steps).1 = .numeral (m + steps) := by
  induction steps with
  | zero => rfl
  | succ steps ih => rw [leProof_succ, ih]; rfl

open Term

namespace Env

/-- The natural numbers and their order are declared as in the prelude. -/
@[mk_iff] structure OrdersNumbers (env : Env) : Prop where
  declared : (env.get? ⟨"Nat"⟩).isSome
  numbers : (env.inductive? ⟨"Nat"⟩).map (fun t => (t.levelParams, t.ctors.map Constructor.type)) =
    some ([], [nat, .pi ⟨"n"⟩ false nat nat])
  order : env.get? ⟨"Nat.le"⟩ = some ⟨⟨"Nat.le"⟩, [], .arrow nat (.arrow nat .prop), .postulate⟩
  refl : env.get? ⟨"Nat.le_refl"⟩ =
    some ⟨⟨"Nat.le_refl"⟩, [], .pi ⟨"n"⟩ false nat (le (.var 0) (.var 0)), .postulate⟩
  step : env.get? ⟨"Nat.le_step"⟩ = some ⟨⟨"Nat.le_step"⟩, [], .pi ⟨"n"⟩ true nat (.pi ⟨"m"⟩ true nat
    (.arrow (le (.var 1) (.var 0)) (le (.var 2) (succ (.var 1))))), .postulate⟩

instance (env : Env) : Decidable env.OrdersNumbers :=
  decidable_of_iff' _ (ordersNumbers_iff env)

variable {env env' : Env}

lemma Growth.ordersNumbers (h : Growth env env') (henv : env.OrdersNumbers) : env'.OrdersNumbers where
  declared := by
    obtain ⟨d, hd⟩ := Option.isSome_iff_exists.mp henv.declared
    rw [h.get?_eq hd]
    rfl
  numbers := by
    cases h with
    | decl d _ _ => exact henv.numbers
    | @family fuel next spec a _ =>
      -- the new type has another name, since that of the numbers was taken
      have hnew : a.info.name ≠ ⟨"Nat"⟩ := by
        intro hname
        have hnone := a.get?_eq_none_of_new (d := spec.decl) (by simp [InductiveSpec.Accepted.newDecls])
        have hdeclared := henv.declared
        rw [← hname] at hdeclared
        simp [show env.get? a.info.name = none from hnone] at hdeclared
      rw [inductive?, a.inductives_result, List.find?_cons_of_neg (by simpa using hnew)]
      exact henv.numbers
    | registration _ hinductives _ =>
      rw [inductive?, hinductives]
      exact henv.numbers
  order := h.get?_eq henv.order
  refl := h.get?_eq henv.refl
  step := h.get?_eq henv.step

/-- The prelude up to the numbers is accepted, and declares them so. -/
lemma naturals_accepted :
    ((Session.executeAll (Prelude.equality ++ Prelude.logic ++ Prelude.naturals)).run.run {}).map
      (fun p => (p.1.isOk, decide p.2.env.OrdersNumbers)) = some (true, true) := by
  decide +kernel

lemma OrdersNumbers.of_naturals {σ : Session}
    (h : SessionM.Ends (Session.executeAll (Prelude.equality ++ Prelude.logic ++ Prelude.naturals)) {} (.ok ()) σ) :
    σ.env.OrdersNumbers := by
  have hrun := naturals_accepted
  rw [h] at hrun
  simp only [Option.map_some, Option.some.injEq, Prod.mk.injEq, decide_eq_true_eq] at hrun
  exact hrun.2

lemma OrdersNumbers.of_added (henv : env.OrdersNumbers) (h : Relation.ReflTransGen Added env env') :
    env'.OrdersNumbers := by
  induction h with
  | refl => exact henv
  | tail _ hadd ih => exact hadd.growth.ordersNumbers ih

/-! ## The proof is accepted -/

lemma whnf_numeral (fuel n : Nat) : env.whnf (fuel + 2) (numeral n) = some (numeral n) := by
  cases n <;> rfl

namespace OrdersNumbers

lemma whnf_le (henv : env.OrdersNumbers) (fuel : Nat) (a b : Term) : env.whnf (fuel + 2) (le a b) = some (le a b) := by
  have hcore : env.whnfCore (fuel + 1) (le a b) = some (le a b) := by
    simp [whnfCore, le, head, recursorOf?, henv.order]
  have hhead : env.unfoldHead? (le a b) = none := by
    simp [unfoldHead?, unfoldConst?, le, head, henv.order]
  simp [whnf, hcore, hhead]

variable (ps : List Name) (next : Nat) (Γ : Context)

section

variable (henv : env.OrdersNumbers)
include henv

lemma infers_numeral (n : Nat) : env.Infers ps next Γ (numeral n) nat := by
  obtain ⟨t, ht, hctors⟩ := Option.map_eq_some_iff.mp henv.numbers
  obtain ⟨hparams, htypes⟩ := Prod.mk.inj hctors
  have hctor (i : Nat) (c : Name) (type : Term) (hi : (t.ctors.map Constructor.type)[i]? = some type) :
      env.Infers ps next Γ (.ctor ⟨"Nat"⟩ i c []) (type.instantiateLevelParams [] []) := by
    rw [List.getElem?_map] at hi
    obtain ⟨k, hk, rfl⟩ := Option.map_eq_some_iff.mp hi
    rw [← hparams]
    exact .ctor ht hk (by simp [hparams]) (List.forall_mem_nil _)
  induction n with
  | zero => exact hctor 0 _ nat (by rw [htypes]; rfl)
  | succ n ih =>
    have hsucc := hctor 1 ⟨"Nat.succ"⟩ (.pi ⟨"n"⟩ false nat nat) (by rw [htypes]; rfl)
    exact .app hsucc (whnf_pi ..) ih (isDefEq_of_alphaEq (alphaEq_refl nat))

lemma infers_leProof (m steps : Nat) :
    env.Infers ps next Γ (Decider.leProof (numeral m) steps).2 (le (numeral m) (numeral (m + steps))) := by
  induction steps with
  | zero =>
    have hrefl : env.Infers ps next Γ (.const ⟨"Nat.le_refl"⟩ []) _ :=
      .const henv.refl (by simp) (.refl _) (List.forall_mem_nil _)
    have happ := hrefl.app (whnf_pi ..) (henv.infers_numeral ps next Γ m) (isDefEq_of_alphaEq (alphaEq_refl nat))
    simpa [le, instantiate, openAt, looseBound, Decider.leProof] using happ
  | succ steps ih =>
    have hstep : env.Infers ps next Γ (.const ⟨"Nat.le_step"⟩ []) _ :=
      .const henv.step (by simp) (.refl _) (List.forall_mem_nil _)
    have hlhs := hstep.app (whnf_pi ..) (henv.infers_numeral ps next Γ m) (isDefEq_of_alphaEq (alphaEq_refl nat))
    have hbound := hlhs.app (whnf_pi ..) (henv.infers_numeral ps next Γ (m + steps))
      (isDefEq_of_alphaEq (alphaEq_refl nat))
    have hfunction : env.Infers ps next Γ ((Term.const ⟨"Nat.le_step"⟩ []).apply [numeral m, numeral (m + steps)])
        (.arrow (le (numeral m) (numeral (m + steps))) (le (numeral m) (numeral (m + steps + 1)))) := by
      simpa [le, instantiate, openAt, looseBound, arrow, succ, numeral] using hbound
    have hproof := hfunction.app (whnf_pi ..) ih (isDefEq_of_alphaEq (alphaEq_refl _))
    rw [Decider.leProof_succ, Decider.bound_leProof, ← Nat.add_assoc]
    simpa [le, instantiate, openAt, looseBound] using hproof

/-- The kernel accepts the proof, with all fuel from some amount on. -/
lemma exists_check_leProof {m n : Nat} (h : m ≤ n) : ∃ enough, ∀ fuel, enough ≤ fuel →
    (env.check ps fuel next Γ (Decider.leProof (numeral m) (n - m)).2 (le (numeral m) (numeral n))).Yields () := by
  have hinfers := henv.infers_leProof ps next Γ m (n - m)
  rw [Nat.add_sub_cancel' h] at hinfers
  obtain ⟨enough, hinfer⟩ := hinfers.exists_fuel
  refine ⟨enough + 2, fun fuel hfuel => ?_⟩
  obtain ⟨fuel, rfl⟩ : ∃ i, fuel = i + 2 := ⟨fuel - 2, by omega⟩
  refine yields_check_iff.mpr ⟨_, hinfer (fuel + 1) (by omega), ?_⟩
  exact isDefEq_mono (by omega) (isDefEq_of_alphaEq (alphaEq_refl _))

/-- The proof is proposed if the inequality holds, and nothing otherwise. -/
lemma natLe_eq (fuel m n : Nat) :
    Decider.natLe.decide env (fuel + 2) next Γ (le (numeral m) (numeral n)) =
      some (if m ≤ n then some (Decider.leProof (numeral m) (n - m)).2 else none) := by
  have hhead (a b : Term) : (le a b).head = .const ⟨"Nat.le"⟩ [] ∧ (le a b).args = [a, b] := ⟨rfl, rfl⟩
  simp [Decider.natLe, henv.whnf_le, hhead, whnf_numeral, numeral?_numeral]

end

end OrdersNumbers

end Env

namespace Elaborator

variable {E : Elaborator} {g : Goal} {d : Decider} {ds : List Decider} {s s' : Supply} {r : Option Term} {X : Situation}

lemma ends_decideBy_none (hd : d.decide E.env E.fuel s.next g.context g.target = some none)
    (h : (E.decideBy g ds).Ends s r s') : (E.decideBy g (d :: ds)).Ends s r s' := by
  refine ends_bind.mpr ⟨s.next, s, ends_pure.mpr ⟨Eq.refl _, Eq.refl _⟩, ?_⟩
  exact ends_bind.mpr ⟨none, s, ends_ofOption.mpr ⟨hd, Eq.refl _⟩, h⟩

lemma ends_decideBy_some {proof : Term} (hd : d.decide E.env E.fuel s.next g.context g.target = some (some proof))
    (hcheck : (E.env.check E.levelParams E.fuel s.next g.context proof g.target).Yields ()) :
    (E.decideBy g (d :: ds)).Ends s (some proof) s := by
  refine ends_bind.mpr ⟨s.next, s, ends_pure.mpr ⟨Eq.refl _, Eq.refl _⟩, ?_⟩
  refine ends_bind.mpr ⟨some proof, s, ends_ofOption.mpr ⟨hd, Eq.refl _⟩, ?_⟩
  exact ends_bind.mpr ⟨.ok (), s, ends_ofOption.mpr ⟨hcheck, Eq.refl _⟩, ends_pure.mpr ⟨Eq.refl _, Eq.refl _⟩⟩

/-- With enough fuel, the default procedures find the proof if the inequality holds, and none otherwise. -/
lemma ends_decideBy_le (henv : E.env.OrdersNumbers) (hE : E.deciders = Decider.defaults) {m n : Nat} (hg : g.target = le (numeral m) (numeral n))
    {fuel : Nat} (hfuel : E.fuel = fuel + 2) (hcheck : m ≤ n → (E.env.check E.levelParams E.fuel s.next g.context
      (Decider.leProof (numeral m) (n - m)).2 g.target).Yields ()) :
    (E.decideBy g E.deciders).Ends s (if m ≤ n then some (Decider.leProof (numeral m) (n - m)).2 else none) s := by
  have hnatLe := henv.natLe_eq s.next g.context fuel m n
  rw [← hfuel, ← hg] at hnatLe
  rw [hE]
  refine ends_decideBy_none (by rw [hg]; exact Eq.refl _) ?_
  split
  · rename_i hle
    rw [if_pos hle] at hnatLe
    exact ends_decideBy_some hnatLe (hcheck hle)
  · rename_i hle
    rw [if_neg hle] at hnatLe
    exact ends_decideBy_none hnatLe (ends_pure.mpr ⟨Eq.refl _, Eq.refl _⟩)

section Decided

variable (rest : List Goal) (hhole : (g.known X.metas).target.hasHole = false)
include hhole

lemma ends_decide {proof : Term} (h : (E.decideBy (g.known X.metas) E.deciders).Ends X.supply (some proof) X.supply)
    {μ : Metas} (hμ : μ = X.metas.assignGoal (g.known X.metas) proof) :
    (E.decide (g :: rest)).Ends X (rest.filter (!μ.isAssigned ·.id)) ⟨X.supply, μ⟩ := by
  subst hμ
  refine ElabM.ends_bind.mpr ⟨_, _, ends_mainGoal.mpr ⟨Eq.refl _, Eq.refl _⟩, ?_⟩
  simp only [hhole]
  refine ElabM.ends_bind.mpr ⟨some proof, X, ElabM.ends_lift.mpr ⟨h, Eq.refl _⟩, ?_⟩
  exact ElabM.ends_bind.mpr ⟨(), _, ElabM.ends_modify.mpr (Eq.refl _), ends_prune.mpr ⟨Eq.refl _, Eq.refl _⟩⟩

lemma fails_decide (h : (E.decideBy (g.known X.metas) E.deciders).Ends X.supply none X.supply) :
    (E.decide (g :: rest)).Fails X (.tactic ⟨.decisionFailed, some (g.known X.metas)⟩) := by
  refine ElabM.fails_bind.mpr (.inr ⟨_, _, ends_mainGoal.mpr ⟨Eq.refl _, Eq.refl _⟩, ?_⟩)
  simp only [hhole]
  exact ElabM.fails_bind.mpr (.inr ⟨none, X, ElabM.ends_lift.mpr ⟨h, Eq.refl _⟩, ElabM.fails_throw.mpr (Eq.refl _)⟩)

end Decided

/-- After the commands of the prelude up to the numbers and any further additions, such as its other commands, `decide`
settles inequalities of numerals, with all fuel from some amount on: it solves the goal by a proof that the kernel
accepts if the inequality holds, and fails otherwise. -/
theorem decide_le_exact {σ : Session}
    (hσ : SessionM.Ends (Session.executeAll (Prelude.equality ++ Prelude.logic ++ Prelude.naturals)) {} (.ok ()) σ)
    (henv : Relation.ReflTransGen Env.Added σ.env E.env) (hE : E.deciders = Decider.defaults) {m n : Nat}
    (hg : g.target = le (numeral m) (numeral n)) (rest : List Goal) (X : Situation) :
    ∃ enough, ∀ fuel, enough ≤ fuel →
      ((∃ proof μ, μ = X.metas.assignGoal (g.known X.metas) proof ∧
        (decide { E with fuel } (g :: rest)).Ends X (rest.filter (!μ.isAssigned ·.id)) ⟨X.supply, μ⟩ ∧
        (E.env.check E.levelParams fuel X.supply.next (g.known X.metas).context proof g.target).Yields ()) ↔ m ≤ n) ∧
      ((decide { E with fuel } (g :: rest)).Fails X (.tactic ⟨.decisionFailed, some (g.known X.metas)⟩) ↔ n < m) := by
  have henv := (Env.OrdersNumbers.of_naturals hσ).of_added henv
  have hhole : g.target.hasHole = false ∧ g.target.hasLevelMVar = false := by
    simp [hg, le, hasHole, hasLevelMVar, anyLevel, hasHole_numeral]
  have htarget : (g.known X.metas).target = g.target := X.metas.instantiate_of_known hhole.1 hhole.2
  by_cases hle : m ≤ n
  · obtain ⟨enough, hcheck⟩ := henv.exists_check_leProof E.levelParams X.supply.next (g.known X.metas).context hle
    refine ⟨enough + 2, fun fuel hfuel => ?_⟩
    obtain ⟨fuel, rfl⟩ : ∃ i, fuel = i + 2 := ⟨fuel - 2, by omega⟩
    have hcheck := hcheck (fuel + 2) (by omega)
    have hfound := ends_decideBy_le (E := { E with fuel := fuel + 2 }) henv hE (htarget.trans hg) (Eq.refl _)
      fun _ => by rw [htarget, hg]; exact hcheck
    rw [if_pos hle] at hfound
    have hends := ends_decide rest (htarget ▸ hhole.1) hfound (Eq.refl _)
    refine ⟨iff_of_true ⟨_, _, Eq.refl _, hends, hg ▸ hcheck⟩ hle, iff_of_false hends.not_fails (Nat.not_lt.mpr hle)⟩
  · refine ⟨2, fun fuel hfuel => ?_⟩
    obtain ⟨fuel, rfl⟩ : ∃ i, fuel = i + 2 := ⟨fuel - 2, by omega⟩
    have hfound := ends_decideBy_le (E := { E with fuel := fuel + 2 }) (s := X.supply) henv hE (htarget.trans hg)
      (Eq.refl _) fun h => absurd h hle
    rw [if_neg hle] at hfound
    have hfails := fails_decide rest (htarget ▸ hhole.1) hfound
    refine ⟨iff_of_false ?_ hle, iff_of_true hfails (Nat.lt_of_not_le hle)⟩
    rintro ⟨proof, μ, -, hends, -⟩
    exact hends.not_fails hfails

/-- After these commands, `2 ≤ 5` is proved and `5 ≤ 2` is not. -/
theorem two_le_five_decided :
    ∃ σ, SessionM.Ends (Session.executeAll (Prelude.equality ++ Prelude.logic ++ Prelude.naturals)) {} (.ok ()) σ ∧
    ∀ (Γ : Context) (X : Situation), ∃ fuel,
      (∃ proof μ, (decide { env := σ.env, fuel } [⟨⟨0, none⟩, Γ, le (numeral 2) (numeral 5)⟩]).Ends X []
        ⟨X.supply, μ⟩ ∧ μ = X.metas.assign ⟨0, none⟩ proof) ∧
      ∃ e, (decide { env := σ.env, fuel } [⟨⟨0, none⟩, Γ, le (numeral 5) (numeral 2)⟩]).Fails X e := by
  obtain ⟨u, σ, hσ, -⟩ := SessionM.exists_ends_ok_of_run
    (f := fun σ => Decidable.decide σ.env.OrdersNumbers) Env.naturals_accepted
  refine ⟨σ, hσ, fun Γ X => ?_⟩
  have hexact (m n : Nat) := decide_le_exact (E := { env := σ.env, fuel := 0 })
    (g := ⟨⟨0, none⟩, Γ, le (numeral m) (numeral n)⟩) hσ .refl (Eq.refl _) (Eq.refl _) [] X
  obtain ⟨enough, h⟩ := hexact 2 5
  obtain ⟨enough', h'⟩ := hexact 5 2
  obtain ⟨proof, μ, hμ, hends, -⟩ := (h (enough + enough') (by omega)).1.mpr (by decide)
  exact ⟨enough + enough', ⟨_, μ, hends, hμ⟩, _, (h' (enough + enough') (by omega)).2.mpr (by decide)⟩

end Elaborator

end ProofAssistant
