import ProofAssistant.Proofs.LevelUnification
import ProofAssistant.Proofs.UnificationScope

/-!
# Unification is sound

When unification succeeds, both terms are convertible once all solutions are put in, and so are the terms that earlier
calls have made convertible (`Env.unify_sound`). What is given has to be in scope, and no solution may lead back to its
own hole.

A call that succeeds only adds solutions, and the terms are convertible whatever is solved later. `SolveM.Solves`
says so, with one rule for each way of combining calls. Terms are compared by settling (`Env.Unified`).
-/

namespace ProofAssistant

open List Term Option Level StateT

variable {μ : Metas}
variable {f c : Term} {k fuel next' n : Nat}

open InductiveSpec

/-! ## Calls that solve -/

/-- What unification keeps: holes have closed solutions, and no metavariable leads back to itself. -/
structure Metas.WellFormed (μ : Metas) : Prop where
  closed : μ.Closed
  levels : ∀ u, ¬ Relation.TransGen μ.LevelLeads u u

/-- From `μ` to `μ'` solutions have been added, after which `C` holds whatever is solved later. -/
structure Metas.Solved (C : Metas → Prop) (μ μ' : Metas) : Prop where
  wellFormed : μ'.WellFormed
  le : μ.Le μ'
  holds : ∀ ν, μ'.Le ν → ν.Closed → ν.Acyclic → C ν

lemma Metas.Solved.mono {C C' : Metas → Prop} {μ' : Metas} (h : Metas.Solved C μ μ')
    (hC : ∀ ν, μ.Le ν → ν.Closed → ν.Acyclic → C ν → C' ν) : Metas.Solved C' μ μ' where
  wellFormed := h.wellFormed
  le := h.le
  holds ν hν hclosed hacyclic := hC ν (h.le.trans hν) hclosed hacyclic (h.holds ν hν hclosed hacyclic)

lemma Metas.Solved.trans {C C' : Metas → Prop} {μ' μ'' : Metas} (h : Metas.Solved C μ μ')
    (h' : Metas.Solved C' μ' μ'') : Metas.Solved C' μ μ'' :=
  { h' with le := h.le.trans h'.le }

namespace SolveM

variable {α : Type} {C C' : Metas → Prop} {μ : Metas}

/-- If the call succeeds, it has solved for `C`. -/
def Solves (x : SolveM Bool) (μ : Metas) (C : Metas → Prop) : Prop :=
  ∀ μ', x.run μ = some (true, μ') → Metas.Solved C μ μ'

/-- If the call has no answer, nothing has changed; if it succeeds, it has solved for `C`. -/
def Attempts (x : SolveM (Option Bool)) (μ : Metas) (C : Metas → Prop) : Prop :=
  ∀ answer μ', x.run μ = some (answer, μ') →
    (answer = none → μ' = μ) ∧ (answer = some true → Metas.Solved C μ μ')

lemma Attempts.noAnswer : (pure none : SolveM (Option Bool)).Attempts μ C := by
  intro answer μ' hrun
  obtain ⟨rfl, rfl⟩ := Prod.mk.inj (Option.some.inj hrun)
  exact ⟨fun _ => rfl, fun h => nomatch h⟩

lemma Attempts.get_bind {f : Metas → SolveM (Option Bool)} (h : (f μ).Attempts μ C) : (get >>= f).Attempts μ C :=
  h

lemma Attempts.lift_bind {o : Option α} {f : α → SolveM (Option Bool)} (h : ∀ a, o = some a → (f a).Attempts μ C) :
    ((liftM o : SolveM α) >>= f).Attempts μ C := by
  cases o with
  | none =>
    intro answer μ' hrun
    exact nomatch hrun
  | some a => exact h a rfl

lemma Attempts.failure : (failure : SolveM (Option Bool)).Attempts μ C := by
  intro answer μ' hrun
  exact nomatch hrun

namespace Solves

variable {x y : SolveM Bool}

lemma mono (h : x.Solves μ C) (hC : ∀ ν, μ.Le ν → ν.Closed → ν.Acyclic → C ν → C' ν) : x.Solves μ C' :=
  fun μ' hrun => (h μ' hrun).mono hC

lemma failure : (failure : SolveM Bool).Solves μ C := by
  intro μ' hrun
  exact nomatch hrun

lemma pure_false : (pure false : SolveM Bool).Solves μ C := by
  intro μ' hrun
  exact nomatch hrun

lemma pure {r : Bool} (hμ : μ.WellFormed)
    (hC : r = true → ∀ ν, μ.Le ν → ν.Closed → ν.Acyclic → C ν) : (pure r : SolveM Bool).Solves μ C := by
  intro μ' hrun
  obtain ⟨rfl, rfl⟩ := Prod.mk.inj (Option.some.inj hrun)
  exact ⟨hμ, .refl μ, hC rfl⟩

lemma ite {c : Prop} [Decidable c] (hx : c → x.Solves μ C) (hy : ¬ c → y.Solves μ C) :
    (if c then x else y).Solves μ C := by
  by_cases h : c
  · rw [if_pos h]
    exact hx h
  · rw [if_neg h]
    exact hy h

lemma get_bind {f : Metas → SolveM Bool} (h : (f μ).Solves μ C) : (get >>= f).Solves μ C :=
  h

/-- One call after another, if the first succeeds. -/
lemma andThen (hx : x.Solves μ C) (hy : ∀ μ', μ.Le μ' → μ'.WellFormed → y.Solves μ' C') :
    (do if ← x then y else return false : SolveM Bool).Solves μ fun ν => C ν ∧ C' ν := by
  intro μ'' hrun
  obtain ⟨⟨solved, μ'⟩, hfirst, hrun⟩ := bind_eq_some_iff.mp hrun
  cases solved with
  | false => exact nomatch hrun
  | true =>
    have h := hx μ' hfirst
    have h' := hy μ' h.le h.wellFormed μ'' hrun
    refine ⟨h'.wellFormed, h.le.trans h'.le, fun ν hν hclosed hacyclic => ?_⟩
    exact ⟨h.holds ν (h'.le.trans hν) hclosed hacyclic, h'.holds ν hν hclosed hacyclic⟩

/-- What does not depend on the solutions may give no answer. -/
lemma lift_bind {o : Option α} {f : α → SolveM Bool} (h : ∀ a, o = some a → (f a).Solves μ C) :
    ((liftM o : SolveM α) >>= f).Solves μ C := by
  cases o with
  | none =>
    intro μ' hrun
    exact nomatch hrun
  | some a => exact h a rfl

lemma orRestore (hx : x.Solves μ C) : (orRestore x).Solves μ C := by
  intro μ'' hrun
  obtain ⟨⟨solved, μ'⟩, hfirst, hrun⟩ := bind_eq_some_iff.mp hrun
  cases solved with
  | false => exact nomatch hrun
  | true =>
    obtain ⟨-, rfl⟩ := Prod.mk.inj (Option.some.inj hrun)
    exact hx _ hfirst

/-- If an attempt fails, what follows starts with the solutions before it. -/
lemma orElse (hx : x.Solves μ C) (hy : y.Solves μ C) :
    (do if ← SolveM.orRestore x then return true else y : SolveM Bool).Solves μ C := by
  intro μ'' hrun
  obtain ⟨⟨solved, μ'⟩, hattempt, hrun⟩ := bind_eq_some_iff.mp hrun
  cases solved with
  | true =>
    obtain ⟨-, rfl⟩ := Prod.mk.inj (Option.some.inj hrun)
    exact hx.orRestore _ hattempt
  | false =>
    obtain ⟨⟨answer, ν⟩, hfirst, hrest⟩ := bind_eq_some_iff.mp hattempt
    cases answer with
    | true => exact nomatch hrest
    | false =>
      obtain ⟨-, rfl⟩ := Prod.mk.inj (Option.some.inj hrest)
      exact hy μ'' hrun

lemma allPairs {test : α → α → SolveM Bool} {R : α → α → Metas → Prop} {as bs : List α} (hμ : μ.WellFormed)
    (htest : ∀ a ∈ as, ∀ b ∈ bs, ∀ μ', μ.Le μ' → μ'.WellFormed → (test a b).Solves μ' (R a b))
    (hlen : as.length = bs.length) : (Env.allPairs test as bs).Solves μ fun ν => List.Forall₂ (R · · ν) as bs := by
  induction as generalizing bs μ with
  | nil =>
    obtain rfl := length_eq_zero_iff.mp hlen.symm
    exact .pure hμ fun _ _ _ _ _ => .nil
  | cons a as ih =>
    cases bs with
    | nil => simp at hlen
    | cons b bs =>
      have hhead := htest a mem_cons_self b mem_cons_self μ (.refl μ) hμ
      refine (hhead.andThen fun μ' hle hμ' => ih hμ' (fun a' ha b' hb μ'' hle' => ?_) (by simpa using hlen)).mono
        fun ν _ _ _ h => .cons h.1 h.2
      exact htest a' (mem_cons_of_mem a ha) b' (mem_cons_of_mem b hb) μ'' (hle.trans hle')

end Solves

lemma Attempts.mono {x : SolveM (Option Bool)} (h : x.Attempts μ C)
    (hC : ∀ ν, μ.Le ν → ν.Closed → ν.Acyclic → C ν → C' ν) : x.Attempts μ C' :=
  fun answer μ' hrun => ⟨(h answer μ' hrun).1, fun hanswer => ((h answer μ' hrun).2 hanswer).mono hC⟩

/-- What follows an attempt that has no answer starts with the solutions before it. -/
lemma Attempts.bind {x : SolveM (Option Bool)} {f : Option Bool → SolveM Bool} (hx : x.Attempts μ C)
    (hsome : ∀ r, f (some r) = pure r) (hnone : (f none).Solves μ C) : (x >>= f).Solves μ C := by
  intro μ'' hrun
  rw [run_bind] at hrun
  obtain ⟨⟨answer, μ'⟩, hattempt, hrest⟩ := bind_eq_some_iff.mp hrun
  obtain ⟨hunchanged, hsolved⟩ := hx answer μ' hattempt
  cases answer with
  | none =>
    obtain rfl := hunchanged rfl
    exact hnone μ'' hrest
  | some r =>
    rw [hsome] at hrest
    obtain ⟨rfl, rfl⟩ := Prod.mk.inj (Option.some.inj hrest)
    exact hsolved rfl

end SolveM

/-! ## Levels -/

namespace Metas

variable {μ : Metas}

lemma Closed.same_instantiateLevel (hμ : μ.Closed) {a b : Level} (ha : a.Plain) (hb : b.Plain) (h : a.Same b) :
    (μ.instantiateLevel a).Same (μ.instantiateLevel b) := by
  rw [← hμ.settle_level ha, ← hμ.settle_level hb]
  exact h.settle hμ.settling

end Metas

namespace Level

open SolveM

variable {μ : Metas}

lemma solves_unify (hμ : μ.WellFormed) {a b : Level} (ha : a.Plain) (hb : b.Plain) (fuel : Nat) :
    (unify fuel a b).Solves μ fun ν => (ν.instantiateLevel a).Same (ν.instantiateLevel b) := by
  intro μ' hrun
  have hunify := @unify_added μ' true (fun _ => none) (fun u => u.hint = none) μ a b (fun _ hu => hu) hμ.levels
    hμ.closed.levels ha hb
  obtain ⟨-, hadded, hequiv⟩ := (hunify hrun).resolve_left (by simp)
  have hclosed : μ'.Closed := ⟨by rw [hadded.rest]; exact hμ.closed.holes, hadded.within⟩
  have hle : μ.Le μ' := ⟨by rw [hadded.rest]; exact fun _ _ h => h, hadded.le⟩
  refine ⟨⟨hclosed, hadded.acyclic⟩, hle, fun ν hle hν hacyclic => ?_⟩
  have hsame := hν.same_instantiateLevel (hclosed.plain_instantiateLevel ha) (hclosed.plain_instantiateLevel hb)
    (value_eq_of_isEquiv hequiv)
  rwa [Metas.instantiateLevel_instantiateLevel hacyclic.levels hle.levels,
    Metas.instantiateLevel_instantiateLevel hacyclic.levels hle.levels] at hsame

lemma solves_unifyAll (hμ : μ.WellFormed) {ls ls' : List Level} (hls : ∀ l ∈ ls, l.Plain)
    (hls' : ∀ l ∈ ls', l.Plain) (fuel : Nat) : (unifyAll fuel ls ls').Solves μ fun ν =>
      List.Forall₂ Same (ls.map ν.instantiateLevel) (ls'.map ν.instantiateLevel) := by
  unfold unifyAll
  by_cases hlen : ls.length = ls'.length
  · rw [if_pos hlen]
    have hpairs := Solves.allPairs hμ
      (fun l hl l' hl' μ' _ hμ' => solves_unify hμ' (hls l hl) (hls' l' hl') fuel) hlen
    refine hpairs.mono fun ν _ _ _ h => ?_
    rw [forall₂_map_left_iff, forall₂_map_right_iff]
    exact h
  · rw [if_neg hlen]
    exact .pure_false

end Level

/-! ## Terms -/

namespace Env

variable {x : Name} {t m : Term} {p : Problem}

open SolveM

variable {env : Env} {P : Id → Prop} {a b : Term} {μ ν : Metas}

/-- The terms are convertible when holes are settled by their solutions. -/
def Unified (env : Env) (a b : Term) (μ : Metas) : Prop :=
  ∀ hμ : μ.Closed, env.Conv (a.settle hμ.settling) (b.settle hμ.settling)

namespace Unified

lemma symm (h : env.Unified a b μ) : env.Unified b a μ :=
  fun hμ => (h hμ).symm

lemma trans (h : env.Unified a b μ) (h' : env.Unified b c μ) : env.Unified a c μ :=
  fun hμ => (h hμ).trans (h' hμ)

section

variable (henv : env.Scoped)
include henv

lemma of_conv (h : env.Conv a b) : env.Unified a b μ :=
  fun hμ => h.settled henv hμ

/-- It is enough to unify terms that the given ones reduce to. -/
lemma of_steps {a' b' : Term} (ha : env.Steps a a') (hb : env.Steps b b')
    (h : env.Unified a' b' μ) : env.Unified a b μ :=
  ((of_conv henv (.of_steps ha)).trans h).trans (of_conv henv (.of_steps hb)).symm

/-- It is enough to unify terms into which the solutions so far have been put. -/
lemma of_instantiate (hμ : μ.Closed) (ha : a.In (.plain P) k) (hb : b.In (.plain P) k)
    (hle : μ.Le ν) (hacyclic : ν.Acyclic) (h : env.Unified (μ.instantiate a) (μ.instantiate b) ν) :
    env.Unified a b ν := fun hν =>
  ((conv_settle_instantiate henv hμ hν hacyclic hle ha).symm.trans (h hν)).trans
    (conv_settle_instantiate henv hμ hν hacyclic hle hb)

/-- Bodies that are unified when opened with a hypothesis that neither mentions. -/
lemma of_opened (ha : a.In (.plain P) k) (hb : b.In (.plain P) k) {x : Id}
    (hx : ¬ P x) (h : env.Unified (a.instantiate (.free x)) (b.instantiate (.free x)) ν) : env.Unified a b ν := by
  intro hν
  have hconv := h hν
  rw [settle_instantiate, settle_instantiate] at hconv
  exact .of_instantiate_free henv.admits_noFree (ha.settle _) (hb.settle _) hx hconv

/-- An abstraction whose body is unified with a function on a hypothesis that neither mentions. -/
lemma eta (hm : m.In (.plain P) 1) (hf : f.In (.plain P) 0) {y : Id} (hy : ¬ P y)
    (h : env.Unified (m.instantiate (.free y)) (f.app (.free y)) ν) : env.Unified (.lam x t m) f ν := by
  have happ : f.app (.free y) = (Term.app f.shift (.var 0)).instantiate (.free y) := by
    rw [Term.instantiate_eq_replace, Term.replace, ← Term.instantiate_eq_replace, Term.instantiate_shift]
    rfl
  rw [happ] at h
  have hbody := of_opened henv hm (b := .app f.shift (.var 0)) ⟨hf.shift, Nat.zero_lt_one⟩ hy h
  have hlam : env.Unified (.lam x t m) (.lam x t (.app f.shift (.var 0))) ν :=
    fun hν => .lam (.refl _) (hbody hν)
  exact hlam.trans (of_conv henv (.eta x t f))

end

/-- Applications with unified heads and arguments. -/
lemma spines (hhead : env.Unified a.head b.head μ) (hargs : List.Forall₂ (env.Unified · · μ) a.args b.args) :
    env.Unified a b μ := by
  intro hμ
  rw [← a.apply_head_args, ← b.apply_head_args, settle_apply, settle_apply]
  refine (hhead hμ).apply ?_
  rw [forall₂_map_left_iff, forall₂_map_right_iff]
  exact hargs.imp fun _ _ h => h hμ

end Unified

/-- The terms and the types in the context mention hypotheses that satisfy `P`, with numbers below `next`. -/
structure Posed (n next : Nat) (P : Id → Prop) (Γ : Context) (a b : Term) : Prop where
  le : n ≤ next
  below : ∀ x, P x → x.number < next
  context : Γ.TypesIn (.plain P)
  left : a.In (.plain P) 0
  right : b.In (.plain P) 0

namespace Posed

variable {n next : Nat} {Γ : Context}
variable {a' b' : Term}

lemma symm (h : Posed n next P Γ a b) : Posed n next P Γ b a :=
  { h with left := h.right, right := h.left }

lemma with_terms (h : Posed n next P Γ a b) (ha : a'.In (.plain P) 0) (hb : b'.In (.plain P) 0) :
    Posed n next P Γ a' b' :=
  { h with left := ha, right := hb }

lemma with_steps (henv : env.Scoped) (h : Posed n next P Γ a b) (ha : env.Steps a a') (hb : env.Steps b b') :
    Posed n next P Γ a' b' :=
  h.with_terms (ha.in_scope (henv.admits_plain P) h.left) (hb.in_scope (henv.admits_plain P) h.right)

lemma later (h : Posed n next P Γ a b) (hle : next ≤ next') : Posed n next' P Γ a b :=
  { h with le := h.le.trans hle, below := fun x hx => Nat.lt_of_lt_of_le (h.below x hx) hle }

lemma not_next (h : Posed n next P Γ a b) (hint : Option Name) : ¬ P ⟨next, hint⟩ :=
  fun hP => Nat.lt_irrefl next (h.below _ hP)

lemma opened (h : Posed n next P Γ a b) (ht : t.In (.plain P) 0)
    (ha : a'.In ((Scope.plain P).push ⟨next, some x⟩) 0) (hb : b'.In ((Scope.plain P).push ⟨next, some x⟩) 0) :
    Posed n (next + 1) (fun y => P y ∨ y = ⟨next, some x⟩) (Γ.push (.new next x t)) a' b' where
  le := h.le.trans (Nat.le_succ next)
  below y hy := by
    rcases hy with hy | rfl
    · exact Nat.lt_succ_of_lt (h.below y hy)
    · exact Nat.lt_succ_self next
  context := h.context.push (Scope.le_push _ _) (ht.widen (Scope.le_push _ _))
  left := ha
  right := hb

end Posed

lemma solves_unifyHeads (hμ : μ.WellFormed) (ha : a.In (.plain P) 0) (hb : b.In (.plain P) 0) (fuel : Nat) :
    (unifyHeads fuel a b).Solves μ (env.Unified a b) := by
  have hsame : ∀ {ls ls' : List Level} {ν : Metas} (hν : ν.Closed), (∀ l ∈ ls, l.Plain) → (∀ l ∈ ls', l.Plain) →
      List.Forall₂ Level.Same (ls.map ν.instantiateLevel) (ls'.map ν.instantiateLevel) →
      List.Forall₂ Level.Same (ls.map (·.settle hν.settling)) (ls'.map (·.settle hν.settling)) := by
    intro ls ls' ν hν hls hls' h
    rw [map_congr_left fun l hl => hν.settle_level (hls l hl), map_congr_left fun l hl => hν.settle_level (hls' l hl)]
    exact h
  unfold unifyHeads
  split
  · split
    · rename_i hc
      subst hc
      exact (solves_unifyAll hμ ha hb fuel).mono fun ν _ _ _ h hν => .const (hsame hν ha hb h)
    · exact .pure_false
  · split
    · rename_i ht
      obtain ⟨rfl, rfl⟩ := ht
      exact (solves_unifyAll hμ ha hb fuel).mono fun ν _ _ _ h hν => .ctor (hsame hν ha hb h)
    · exact .pure_false
  · refine .pure hμ fun heq ν _ _ _ hν => ?_
    rw [beq_iff_eq.mp heq]
    exact .refl _
  · refine .pure hμ fun heq ν _ _ _ hν => ?_
    rw [beq_iff_eq.mp heq]
    exact conv_settling_hole hν _ _ _
  · refine .pure hμ fun heq ν _ _ _ hν => ?_
    rw [beq_iff_eq.mp heq]
    exact .refl _
  · exact .pure_false

/-- Unification with this much fuel succeeds for unified terms only. -/
structure UnifiesSoundly (env : Env) (s : Supply) (n fuel : Nat) : Prop where
  unify : ∀ {next P Γ a b μ}, μ.WellFormed → Posed n next P Γ a b →
    (env.unify s fuel next Γ a b).Solves μ (env.Unified a b)
  core : ∀ {next P Γ a b μ}, μ.WellFormed → Posed n next P Γ a b →
    (env.unifyCore s fuel next Γ a b).Solves μ (env.Unified a b)
  spines : ∀ {next P Γ a b μ}, μ.WellFormed → Posed n next P Γ a b →
    (env.unifySpines s fuel next Γ a b).Solves μ (env.Unified a b)
  solve : ∀ {next P Γ a b μ}, μ.WellFormed → Posed n next P Γ a b →
    (env.solve? s fuel next Γ a b).Attempts μ (env.Unified a b)

namespace UnifiesSoundly

variable {s : Supply} {n fuel next : Nat} {Γ : Context}

lemma step_unify (henv : env.Scoped) (ih : UnifiesSoundly env s n fuel) (hμ : μ.WellFormed)
    (h : Posed n next P Γ a b) : (env.unify s (fuel + 1) next Γ a b).Solves μ (env.Unified a b) := by
  suffices (env.unify s (fuel + 1) next Γ a b).Solves μ (env.Unified (μ.instantiate a) (μ.instantiate b)) from
    this.mono fun ν hle _ hacyclic hunified => hunified.of_instantiate henv hμ.closed h.left h.right hle hacyclic
  have h := h.with_terms (hμ.closed.instantiate_in h.left) (hμ.closed.instantiate_in h.right)
  unfold Env.unify
  refine .get_bind (.get_bind ?_)
  dsimp only
  split
  · rename_i halpha
    exact .pure hμ fun _ ν _ _ _ => .of_conv henv (.of_alphaEq halpha)
  refine (ih.solve hμ h).bind (fun _ => rfl) ?_
  refine ((ih.solve hμ h.symm).mono fun ν _ _ _ hunified => hunified.symm).bind (fun _ => rfl) ?_
  refine .lift_bind fun a' ha' => .lift_bind fun b' hb' => ?_
  have hsteps := steps_of_whnfCore ha'
  have hsteps' := steps_of_whnfCore hb'
  split
  · exact (ih.core hμ (h.with_steps henv hsteps hsteps')).mono fun ν _ _ _ => .of_steps henv hsteps hsteps'
  · exact (ih.unify hμ (h.with_steps henv hsteps hsteps')).mono fun ν _ _ _ => .of_steps henv hsteps hsteps'

lemma step_binder (henv : env.Scoped) (ih : UnifiesSoundly env s n fuel) (hμ : μ.WellFormed) {t' m' : Term}
    (h : Posed n next P Γ t t') (hm : m.In (.plain P) 1) (hm' : m'.In (.plain P) 1) :
    SolveM.Solves (do
      if ← env.unify s fuel next Γ t t' then
        let h := Local.new next x ((← get).instantiate t)
        env.unify s fuel (next + 1) (Γ.push h) (m.instantiate h.term) (m'.instantiate h.term)
      else return false) μ fun ν => env.Unified t t' ν ∧ env.Unified m m' ν := by
  refine (ih.unify hμ h).andThen fun μ' _ hμ' => .get_bind ?_
  have hopened := h.opened (hμ'.closed.instantiate_in h.left) (hm.opened (.new next x t)) (hm'.opened (.new next x t))
  exact (ih.unify hμ' hopened).mono fun ν _ _ _ hunified => .of_opened henv hm hm' (h.not_next (some x)) hunified

lemma step_eta (henv : env.Scoped) (ih : UnifiesSoundly env s n fuel) (hμ : μ.WellFormed)
    (h : Posed n next P Γ (.lam x t m) f) :
    SolveM.Solves (do
      let h := Local.new next x ((← get).instantiate t)
      env.unify s fuel (next + 1) (Γ.push h) (m.instantiate h.term) (f.app h.term)) μ
      (env.Unified (.lam x t m) f) := by
  refine .get_bind ?_
  have hf : (f.app (.free ⟨next, some x⟩)).In ((Scope.plain P).push ⟨next, some x⟩) 0 :=
    ⟨h.right.widen (Scope.le_push _ _), .inr rfl⟩
  have hopened := h.opened (hμ.closed.instantiate_in h.left.1) (h.left.2.opened (.new next x t)) hf
  exact (ih.unify hμ hopened).mono fun ν _ _ _ hunified => .eta henv h.left.2 h.right (h.not_next (some x)) hunified

lemma step_spines (ih : UnifiesSoundly env s n fuel) (hμ : μ.WellFormed) (h : Posed n next P Γ a b) :
    (env.unifySpines s (fuel + 1) next Γ a b).Solves μ (env.Unified a b) := by
  unfold Env.unifySpines
  split
  · exact .pure_false
  rename_i hlen
  obtain ⟨hhead, hargs⟩ := h.left.head_args
  obtain ⟨hhead', hargs'⟩ := h.right.head_args
  refine ((solves_unifyHeads hμ hhead hhead' fuel).andThen fun μ' _ hμ' => ?_).mono
    fun ν _ _ _ hunified => .spines hunified.1 hunified.2
  exact .allPairs hμ' (fun x hx y hy μ'' _ hμ'' => ih.unify hμ'' (h.with_terms (hargs x hx) (hargs' y hy)))
    (Decidable.not_not.mp hlen)

lemma step_core (henv : env.Scoped) (ih : UnifiesSoundly env s n fuel) (hμ : μ.WellFormed)
    (h : Posed n next P Γ a b) : (env.unifyCore s (fuel + 1) next Γ a b).Solves μ (env.Unified a b) := by
  unfold Env.unifyCore
  split
  · refine (solves_unify hμ h.left h.right fuel).mono fun ν _ _ _ hsame hν => .sort ?_
    rw [hν.settle_level h.left, hν.settle_level h.right]
    exact hsame
  · exact (ih.step_binder henv hμ (h.with_terms h.left.1 h.right.1) h.left.2 h.right.2).mono
      fun ν _ _ _ hunified hν => .pi (hunified.1 hν) (hunified.2 hν)
  · exact (ih.step_binder henv hμ (h.with_terms h.left.1 h.right.1) h.left.2 h.right.2).mono
      fun ν _ _ _ hunified hν => .lam (hunified.1 hν) (hunified.2 hν)
  · exact ih.step_eta henv hμ h
  · exact (ih.step_eta henv hμ h.symm).mono fun ν _ _ _ hunified => hunified.symm
  · refine (ih.spines hμ h).orElse ?_
    have hunfold : ∀ (m : Term) (c : Prop) [Decidable c],
        env.Steps m ((if c then env.unfoldHead? m else none).getD m) := by
      intro m c _
      cases hm : if c then env.unfoldHead? m else none with
      | none => exact .refl m
      | some m' =>
        split at hm
        · exact steps_of_unfoldHead? hm
        · simp at hm
    have hsteps := hunfold a (0 < env.headHeight a ∧ env.headHeight b ≤ env.headHeight a)
    have hsteps' := hunfold b (0 < env.headHeight b ∧ env.headHeight a ≤ env.headHeight b)
    refine .ite (fun _ => .pure_false) fun _ => ?_
    exact (ih.unify hμ (h.with_steps henv hsteps hsteps')).mono fun ν _ _ _ => .of_steps henv hsteps hsteps'

/-- A hole without solution is solved by a term over binders for the hypotheses of the pattern. -/
lemma solved_assign (henv : env.Scoped) {g : Goal} {spine : List Id} (hp : Solvable s a b g spine)
    (hμ : μ.WellFormed) (hopen : μ.isAssigned g.id = false) (hb : b.In (.plain P) 0) {xs : List Local}
    (hxs : Local.AllIn (.plain fun _ => False) xs) (hnodup : (xs.map Local.id).Nodup)
    (hlen : xs.length = spine.length) :
    Metas.Solved (env.Unified a b) μ (μ.assign g.id ((b.subst (spine.zip (xs.map Local.term))).abs xs)) := by
  have hvalue := Term.In.abs hxs (hp.renamed_in hb hlen)
  have hconv : env.Conv _ b := hp.conv_solution hb hxs hnodup hlen
  generalize (b.subst (spine.zip (xs.map Local.term))).abs xs = value at hvalue hconv
  have hlookup : ∀ h, (μ.assign g.id value).holes.lookup h = if h = g.id then some value else μ.holes.lookup h :=
    lookup_cons_eq_ite g.id value μ.holes
  refine ⟨⟨⟨fun h v hv => ?_, hμ.closed.levels⟩, hμ.levels⟩, ⟨fun h v hv => ?_, fun _ _ hl => hl⟩, ?_⟩
  · rw [hlookup] at hv
    split at hv
    · exact Option.some.inj hv ▸ hvalue
    · exact hμ.closed.holes h v hv
  · rw [hlookup]
    split
    · rename_i heq
      simp [Metas.isAssigned, ← heq, hv] at hopen
    · exact hv
  · intro ν hle _ hacyclic hν
    have hv : ν.holes.lookup g.id = some value := hle.holes _ _ (by rw [hlookup, if_pos rfl])
    have hspine : (spine.map free).map (·.settle hν.settling) = spine.map .free := by
      rw [List.map_map]
      rfl
    have hsettled := hconv.settled henv hν
    rw [settle_apply, hspine] at hsettled
    rw [hp.pattern_eq, settle_apply, hspine]
    refine (Conv.apply_left ?_ _).trans hsettled
    show env.Conv (ν.instantiate (.hole g.id false)) _
    rw [Metas.instantiate_hole hacyclic hv]
    exact conv_instantiate hν hvalue

/-- A pattern is solved by a closed term, once the types are unified. -/
lemma step_solve (henv : env.Scoped) (hs : ∀ g ∈ s.goals, g.Scoped n) (ih : UnifiesSoundly env s n fuel)
    (hμ : μ.WellFormed) (h : Posed n next P Γ a b) :
    (env.solve? s (fuel + 1) next Γ a b).Attempts μ (env.Unified a b) := by
  unfold Env.solve?
  refine .get_bind ?_
  split
  · rename_i g spine hsolvable
    have hp := solvable_of_solvable? hsolvable
    have hg := hs g hp.goal
    refine .lift_bind fun opened hopened => ?_
    split
    · rename_i xs type
      refine .lift_bind fun inferred hinferred => ?_
      split
      · exact .noAnswer
      obtain ⟨hlen, hfresh, hbinders, htype⟩ :=
        OpensPattern.binders_in .plain henv hμ.closed.closedOver hg.scopedOver ⟨hp, hopened⟩
      generalize spine.length - g.context.locals.length = extra at hfresh hinferred ⊢
      have hnumbers := (hg.fresh.weaken (Nat.le_refl 0) h.le).append hfresh
      have hlater := h.later (Nat.le_add_right next extra)
      have hinferred := typeOf_in .plain henv (fun g hg => (hs g hg).scopedOver) hμ.closed.closedOver h.context h.right
        hinferred
      have htypes := hlater.with_terms hinferred (hp.expected_in h.left hlen htype)
      intro answer μ₂ hrun
      obtain ⟨⟨typed, μ₁⟩, htyped, hrest⟩ := bind_eq_some_iff.mp hrun
      cases typed with
      | false =>
        obtain ⟨rfl, -⟩ := Prod.mk.inj (Option.some.inj hrest)
        exact ⟨by rintro ⟨⟩, by rintro ⟨⟩⟩
      | true =>
        have hsolved := ih.unify hμ htypes μ₁ htyped
        change StateT.run (if μ₁.isAssigned g.id then _ else _) μ₁ = _ at hrest
        split at hrest
        · -- the unification of the types may have solved the hole
          obtain ⟨⟨solved, μ₃⟩, hunify, hrest⟩ := bind_eq_some_iff.mp hrest
          obtain ⟨rfl, rfl⟩ := Prod.mk.inj (Option.some.inj hrest)
          refine ⟨by rintro ⟨⟩, fun hanswer => ?_⟩
          obtain rfl := Option.some.inj hanswer
          exact hsolved.trans (ih.unify hsolved.wellFormed hlater μ₃ hunify)
        · rename_i hopen
          obtain ⟨rfl, rfl⟩ := Prod.mk.inj (Option.some.inj hrest)
          refine ⟨by rintro ⟨⟩, fun _ => hsolved.trans ?_⟩
          exact solved_assign henv hp hsolved.wellFormed (by simpa using hopen) h.right hbinders hnumbers.nodup hlen
    · exact .noAnswer
  · exact .noAnswer

end UnifiesSoundly

lemma unifiesSoundly (henv : env.Scoped) {s : Supply} (hs : ∀ g ∈ s.goals, g.Scoped n) (fuel : Nat) :
    UnifiesSoundly env s n fuel := by
  induction fuel with
  | zero =>
    constructor <;> intros
    · unfold Env.unify; exact .failure
    · unfold Env.unifyCore; exact .failure
    · unfold Env.unifySpines; exact .failure
    · unfold Env.solve?; exact .failure
  | succ fuel ih =>
    exact ⟨ih.step_unify henv, ih.step_core henv, ih.step_spines, ih.step_solve henv hs⟩

/-! ## The main statement -/

/-- A call of unification: goals of holes, the next number, the context, the terms to be made convertible, solutions so
far. -/
structure Problem where
  supply : Supply
  next : Nat
  context : Context
  left : Term
  right : Term
  metas : Metas

namespace Problem

/-- What unification answers, and the solutions it ends with. -/
def run (p : Problem) (env : Env) (fuel : Nat) : Option (Bool × Metas) :=
  (env.unify p.supply fuel p.next p.context p.left p.right).run p.metas

/-- Terms have no loose indices, hypotheses have numbers below `next`, goals are in scope, and closed solutions do not
lead back. -/
structure WellScoped (p : Problem) : Prop where
  goals : ∀ g ∈ p.supply.goals, g.Scoped p.next
  context : p.context.TypesIn (.plain (·.number < p.next))
  left : p.left.In (.plain (·.number < p.next)) 0
  right : p.right.In (.plain (·.number < p.next)) 0
  closed : p.metas.Closed
  acyclic : p.metas.Acyclic

lemma WellScoped.solved (henv : env.Scoped) (hp : p.WellScoped) (h : p.run env fuel = some (true, μ)) :
    Metas.Solved (env.Unified p.left p.right) p.metas μ :=
  (unifiesSoundly henv hp.goals fuel).unify ⟨hp.closed, hp.acyclic.levels⟩
    ⟨Nat.le_refl _, fun _ hx => hx, hp.context, hp.left, hp.right⟩ μ h

lemma WellScoped.conv (hp : p.WellScoped) (hμ : μ.Closed) (h : env.Unified p.left p.right μ) :
    env.Conv (μ.instantiate p.left) (μ.instantiate p.right) :=
  ((conv_instantiate hμ hp.left).trans (h hμ)).trans (conv_instantiate hμ hp.right).symm

end Problem

/-- Unification is sound. If it succeeds, and no solution leads back to what it solves, then the terms with all
solutions put in are convertible, and so are those of every earlier call whose solutions have been kept. -/
theorem unify_sound (henv : Reachable env) {p : Problem} (hp : p.WellScoped) {fuel : Nat} {μ : Metas}
    (hrun : p.run env fuel = some (true, μ)) (hacyclic : μ.Acyclic) :
    env.Conv (μ.instantiate p.left) (μ.instantiate p.right) ∧
    ∀ (q : Problem) (fuel' : Nat) (μ' : Metas), q.WellScoped → q.run env fuel' = some (true, μ') → μ'.Le p.metas →
      env.Conv (μ.instantiate q.left) (μ.instantiate q.right) := by
  have hscoped := scoped_of_reachable henv
  have hsolved := hp.solved hscoped hrun
  have hμ := hsolved.wellFormed.closed
  refine ⟨hp.conv hμ (hsolved.holds μ (.refl μ) hμ hacyclic), fun q fuel' μ' hq hrun' hle => hq.conv hμ ?_⟩
  exact (hq.solved hscoped hrun').holds μ (hle.trans hsolved.le) hμ hacyclic

namespace Problem

/-- The metavariable that the examples have in common. -/
def sampleLevel : Level := .mvar ⟨4, none⟩

/-- A function on `Sort ?u`. -/
def sampleFunction : Local := .new 1 ⟨"f"⟩ (.arrow (.sort sampleLevel) (.sort sampleLevel))

/-- A type in `Sort ?u`. -/
def sampleType : Local := .new 2 ⟨"x"⟩ (.sort sampleLevel)

/-- A hole that may use the function. -/
def sampleGoal : Goal := ⟨⟨0, none⟩, ⟨[sampleFunction]⟩, .arrow (.sort sampleLevel) (.sort sampleLevel)⟩

/-- The problem `Sort ?u = Type`. -/
def sorts : Problem := ⟨⟨5, [sampleGoal]⟩, 5, {}, .sort sampleLevel, .sort .one, {}⟩

/-- The problem `?h f x = m`, after `Sort ?u = Type` has been solved. -/
def pattern (m : Term) : Problem :=
  ⟨⟨5, [sampleGoal]⟩, 5, ⟨[sampleFunction, sampleType]⟩,
    (hole ⟨0, none⟩ false).apply [sampleFunction.term, sampleType.term], m, ⟨[], [(⟨4, none⟩, .one)], []⟩⟩

lemma plain_sampleLevel : sampleLevel.Plain := by
  intro u hu
  obtain rfl := mem_singleton.mp hu
  rfl

lemma scoped_sampleGoal : ∀ g ∈ [sampleGoal], g.Scoped 5 := by
  intro g hg
  obtain rfl := mem_singleton.mp hg
  have hl := plain_sampleLevel
  exact ⟨(Local.Between.new 1 _ _).weaken (by decide) (by decide), ⟨⟨hl, hl⟩, trivial⟩, ⟨hl, hl⟩⟩

lemma wellScoped_sorts : sorts.WellScoped where
  goals := scoped_sampleGoal
  context := by simp [Context.TypesIn, sorts]
  left := plain_sampleLevel
  right := .of_hasMVar rfl
  closed := ⟨by simp [sorts], by simp [sorts]⟩
  acyclic := .of_ground (by simp [sorts]) (by simp [sorts])

lemma wellScoped_pattern (hm : m.In (.plain (·.number < 5)) 0) : (pattern m).WellScoped where
  goals := scoped_sampleGoal
  context := by
    have hl := plain_sampleLevel
    simp only [Context.TypesIn, pattern, forall_mem_cons]
    exact ⟨⟨hl, hl⟩, hl, by simp⟩
  left := by
    rw [pattern]
    simp [sampleFunction, sampleType, Local.term, Local.new, Term.In, Scope.plain]
  right := hm
  closed := by
    refine ⟨by simp [pattern], fun u l hl => ?_⟩
    have hmem := mem_of_lookup_eq_some hl
    obtain ⟨-, rfl⟩ := Prod.mk.inj (mem_singleton.mp hmem)
    exact .of_hasMVar rfl
  acyclic := .of_ground (by simp [pattern]) (by simp [pattern, one, mvars])

/-- The solution `fun f x => f x` of the hole. -/
def sampleSolution : Term :=
  .lam ⟨"f"⟩ sampleFunction.type (.lam ⟨"_"⟩ (.sort .one) (.app (.var 1) (.var 0)))

/-- Solutions are told by the holes and metavariables that are solved. -/
lemma exists_run {holes : List (Id × Term)} {levels : List (Id × Level)}
    (h : (p.run env fuel).map (fun r => (r.1, r.2.holes, r.2.levels)) = some (true, holes, levels)) :
    ∃ μ, p.run env fuel = some (true, μ) ∧ μ.holes = holes ∧ μ.levels = levels := by
  obtain ⟨⟨solved, μ⟩, hrun, heq⟩ := map_eq_some_iff.mp h
  obtain ⟨rfl, rfl, rfl⟩ : solved = true ∧ μ.holes = holes ∧ μ.levels = levels := by simpa using heq
  exact ⟨μ, hrun, rfl, rfl⟩

lemma acyclic_sample {μ : Metas} (hholes : μ.holes = [(⟨0, none⟩, sampleSolution)])
    (hlevels : μ.levels = [(⟨4, none⟩, .one)]) : μ.Acyclic := by
  refine .of_ground ?_ ?_
  · rw [hholes, forall_mem_singleton]
    exact fun _ => rfl
  · rw [hlevels, forall_mem_singleton]
    rfl

end Problem

/-- The hole in `?h f x = f x` is solved by `fun f x => f x`, after `Sort ?u = Type` has been solved. -/
theorem pattern_unified : ∃ (p q : Problem) (μ μ' : Metas), p.WellScoped ∧ q.WellScoped ∧
    q.run {} 10 = some (true, μ') ∧ μ'.Le p.metas ∧ p.run {} 20 = some (true, μ) ∧ μ.Acyclic ∧
    μ.holes = [(⟨0, none⟩, Problem.sampleSolution)] ∧
    ({} : Env).Conv (μ.instantiate p.left) (μ.instantiate p.right) ∧
    ({} : Env).Conv (μ.instantiate q.left) (μ.instantiate q.right) := by
  have hp := Problem.wellScoped_pattern (m := Problem.sampleFunction.term.app Problem.sampleType.term)
    (by simp [Problem.sampleFunction, Problem.sampleType, Local.term, Local.new, Term.In, Scope.plain])
  have hq := Problem.wellScoped_sorts
  have hsorts : (Problem.sorts.run {} 10).map (fun r => (r.1, r.2.holes, r.2.levels)) =
      some (true, [], [(⟨4, none⟩, .one)]) := by decide +kernel
  have hpattern : ((Problem.pattern (Problem.sampleFunction.term.app Problem.sampleType.term)).run {} 20).map
      (fun r => (r.1, r.2.holes, r.2.levels)) =
      some (true, [(⟨0, none⟩, Problem.sampleSolution)], [(⟨4, none⟩, .one)]) := by decide +kernel
  obtain ⟨μ', hrun', hholes', hlevels'⟩ := Problem.exists_run hsorts
  obtain ⟨μ, hrun, hholes, hlevels⟩ := Problem.exists_run hpattern
  have hle : μ'.Le ⟨[], [(⟨4, none⟩, .one)], []⟩ :=
    ⟨fun h v hv => by simp [hholes'] at hv, fun u l hl => hlevels' ▸ hl⟩
  have hacyclic := Problem.acyclic_sample hholes hlevels
  obtain ⟨hconv, hearlier⟩ := unify_sound .refl hp hrun hacyclic
  exact ⟨_, _, μ, μ', hp, hq, hrun', hle, hrun, hacyclic, hholes, hconv, hearlier _ 10 μ' hq hrun' hle⟩

/-- A loose index is captured: `?h f x = f #0` is solved by `fun f x => f x`, which makes the left side `f x`. -/
theorem loose_index_captured : ∃ (p : Problem) (μ : Metas), (∀ g ∈ p.supply.goals, g.Scoped p.next) ∧
    p.context.TypesIn (.plain (·.number < p.next)) ∧ p.left.In (.plain (·.number < p.next)) 0 ∧
    p.right.In (.plain (·.number < p.next)) 1 ∧ p.metas.Closed ∧ p.metas.Acyclic ∧
    p.run {} 20 = some (true, μ) ∧ μ.Acyclic ∧
    ¬ ({} : Env).Conv (μ.instantiate p.left) (μ.instantiate p.right) := by
  have hp := Problem.wellScoped_pattern (m := .sort .zero) Level.plain_zero
  have hpattern : ((Problem.pattern (Problem.sampleFunction.term.app (.var 0))).run {} 20).map
      (fun r => (r.1, r.2.holes, r.2.levels)) =
      some (true, [(⟨0, none⟩, Problem.sampleSolution)], [(⟨4, none⟩, .one)]) := by decide +kernel
  obtain ⟨μ, hrun, hholes, hlevels⟩ := Problem.exists_run hpattern
  refine ⟨.pattern (Problem.sampleFunction.term.app (.var 0)), μ, hp.goals, hp.context, hp.left,
    by simp [Problem.pattern, Problem.sampleFunction, Local.term, Local.new, Term.In, Scope.plain],
    hp.closed, hp.acyclic, hrun, Problem.acyclic_sample hholes hlevels, fun hconv => ?_⟩
  obtain ⟨_, _, pending⟩ := μ
  subst hholes hlevels
  -- with the identity for `f`, one side becomes what is put for `x`, the other what is put for the index
  have hadmits := (scoped_of_reachable (.refl : Reachable {})).admits_noFree
  have hsorts := hconv.replace hadmits
    ⟨fun _ => .sort .one, fun y => if y = Problem.sampleType.id then .sort .zero else .lam ⟨"y"⟩ .type (.var 0)⟩
  have hid : ∀ l, ({} : Env).Conv (.app (.lam ⟨"y"⟩ .type (.var 0)) (.sort l)) (.sort l) := fun l =>
    .contract (.beta ⟨"y"⟩ .type (.var 0) (.sort l))
  have hsame := Conv.sort_inj hadmits (((hid .zero).symm.trans hsorts).trans (hid .one))
  exact absurd (hsame ⟨fun _ => 0, fun _ => 0⟩) (by decide)

end Env

end ProofAssistant
