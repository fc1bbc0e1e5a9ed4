import Mathlib
import ProofAssistant.Proofs.InstancePrecedence
import ProofAssistant.Proofs.Occurrences

/-!
# Where rewriting finds a match

Rewriting settles the holes of its pattern at the first part of the target that the pattern fits, by its head and by
unification, which may unfold definitions; replacement is by occurrences as they are written. So an instance of the
pattern is missed where it has only universe metavariables to settle or no head to compare, or where an earlier part
fits by unfolding only.
-/

namespace ProofAssistant

open ElabM List

variable {r : Bool}

/-! ## Unification and attempts -/

lemma ElabM.ends_orRestore {x : ElabM Bool} {X Y : Situation} : (orRestore x).Ends X r Y ↔
      r = true ∧ x.Ends X true Y ∨ r = false ∧ ∃ Z, x.Ends X false Z ∧ ⟨Z.supply, X.metas⟩ = Y := by
  simp only [orRestore, ends_bind, ends_get]
  constructor
  · rintro ⟨_, _, ⟨rfl, rfl⟩, solved, Z, hx, h⟩
    cases solved with
    | true =>
      obtain ⟨rfl, rfl⟩ := h.pure
      exact .inl ⟨rfl, hx⟩
    | false =>
      obtain ⟨_, _, hset, h⟩ := h.bind
      obtain rfl := ends_set.mp hset
      obtain ⟨rfl, rfl⟩ := h.pure
      exact .inr ⟨rfl, Z, hx, rfl⟩
  · rintro (⟨rfl, hx⟩ | ⟨rfl, Z, hx, rfl⟩)
    · exact ⟨_, _, ⟨rfl, rfl⟩, true, Y, hx, ends_pure.mpr ⟨rfl, rfl⟩⟩
    · exact ⟨_, _, ⟨rfl, rfl⟩, false, Z, hx, ends_bind.mpr ⟨(), _, ends_set.mpr rfl, ends_pure.mpr ⟨rfl, rfl⟩⟩⟩

/-- The side of the equation that is rewritten. -/
def Equation.source (eqn : Equation) (reverse : Bool) : Term :=
  if reverse then eqn.rhs else eqn.lhs

namespace Elaborator

variable {E : Elaborator} {R : Recursion} {Γ : Context} {X Y Z : Situation} {e : Failure}
variable {a b pattern m type : Term} {ms : List Term}

lemma supply_of_ends_unify (h : (E.unify Γ a b).Ends X r Y) : Y.supply = X.supply := by
  simp only [unify, ends_bind, ends_getSupply, ends_get, ends_lift, FreshM.ends_ofOption, ends_set, ends_pure] at h
  obtain ⟨_, _, ⟨rfl, rfl⟩, _, _, ⟨rfl, rfl⟩, _, _, ⟨⟨-, hs⟩, -⟩, _, _, rfl, -, rfl⟩ := h
  exact hs.symm

/-- A unification that has been evaluated. -/
lemma ends_unify_of_run {μ : Metas}
    (h : ((E.env.unify X.supply E.fuel X.supply.next Γ a b).run X.metas).any (fun r' => r'.1 == r &&
      r'.2.holes == μ.holes && r'.2.levels == μ.levels && r'.2.pending == μ.pending) = true) :
    (E.unify Γ a b).Ends X r ⟨X.supply, μ⟩ := by
  cases hrun : (E.env.unify X.supply E.fuel X.supply.next Γ a b).run X.metas with
  | none => simp [hrun] at h
  | some r' =>
    obtain ⟨r', holes, levels, pending⟩ := r'
    simp only [hrun, Option.any_some, Bool.and_eq_true, beq_iff_eq] at h
    obtain ⟨⟨⟨rfl, rfl⟩, rfl⟩, rfl⟩ := h
    simp only [unify, ends_bind, ends_getSupply, ends_get, ends_lift, FreshM.ends_ofOption, ends_set, ends_pure]
    exact ⟨_, _, ⟨.refl _, .refl _⟩, _, _, ⟨.refl _, .refl _⟩, _, X, ⟨⟨hrun, .refl _⟩, .refl _⟩, (), _, .refl _,
      .refl _, .refl _⟩

lemma not_fails_orRestore_unify : ¬ (orRestore (E.unify Γ a b)).Fails X e := by
  simp only [orRestore, fails_bind, not_fails_get, not_fails_unify, false_or]
  rintro ⟨_, _, -, solved, _, -, h⟩
  cases solved with
  | true => exact not_fails_pure h
  | false =>
    simp only [Bool.false_eq_true, if_false, fails_bind, not_fails_set, not_fails_pure, and_false,
      exists_false, or_false] at h

/-! ## The first match -/

/-- The pattern has another head than the term or does not unify with it. -/
def Passes (E : Elaborator) (Γ : Context) (pattern : Term) (X : Situation) (m : Term) : Prop :=
  sameHead m pattern = true → ∃ Z, (E.unify Γ pattern m).Ends X false Z

/-- The term is the first of the terms that the pattern fits, by the solutions of `Z`. -/
structure FirstMatch (E : Elaborator) (Γ : Context) (pattern : Term) (ms : List Term) (X : Situation) (m : Term)
    (Z : Situation) : Prop where
  head : sameHead m pattern = true
  unifies : (E.unify Γ pattern m).Ends X true Z
  first : ∃ before after, ms = before ++ m :: after ∧ ∀ t ∈ before, E.Passes Γ pattern X t

lemma FirstMatch.mem (h : E.FirstMatch Γ pattern ms X m Z) : m ∈ ms := by
  obtain ⟨before, after, rfl, -⟩ := h.first
  simp

lemma FirstMatch.cons {t : Term} (h : E.FirstMatch Γ pattern ms X m Z) (ht : E.Passes Γ pattern X t) :
    E.FirstMatch Γ pattern (t :: ms) X m Z := by
  obtain ⟨before, after, rfl, hbefore⟩ := h.first
  exact ⟨h.head, h.unifies, t :: before, after, .refl _, forall_mem_cons.mpr ⟨ht, hbefore⟩⟩

lemma FirstMatch.of_cons {t : Term} (h : E.FirstMatch Γ pattern (t :: ms) X m Z) :
    t = m ∨ E.Passes Γ pattern X t ∧ E.FirstMatch Γ pattern ms X m Z := by
  obtain ⟨before, after, hms, hbefore⟩ := h.first
  cases before with
  | nil => exact .inl (List.cons.inj hms).1
  | cons t' before =>
    obtain ⟨rfl, rfl⟩ := List.cons.inj hms
    rw [forall_mem_cons] at hbefore
    exact .inr ⟨hbefore.1, h.head, h.unifies, before, after, .refl _, hbefore.2⟩

/-- The search ends at the first match, or where it began if there is none. -/
lemma ends_matchFirst_iff : (E.matchFirst Γ pattern ms).Ends X () Z ↔
      (∃ m, E.FirstMatch Γ pattern ms X m Z) ∨ X = Z ∧ ∀ m ∈ ms, E.Passes Γ pattern X m := by
  induction ms with
  | nil =>
    rw [matchFirst, ends_pure]
    constructor
    · exact fun h => .inr ⟨h.2, forall_mem_nil _⟩
    · rintro (⟨m, hm⟩ | ⟨rfl, -⟩)
      · exact absurd hm.mem not_mem_nil
      · exact ⟨.refl _, .refl _⟩
  | cons t ms ih =>
    -- a step that passes leaves the search as it was
    have hpass (ht : E.Passes Γ pattern X t) :
        (E.matchFirst Γ pattern (t :: ms)).Ends X () Z ↔ (E.matchFirst Γ pattern ms).Ends X () Z := by
      rw [matchFirst]
      split
      · rename_i hhead
        obtain ⟨W, hW⟩ := ht hhead
        have hrestore : (orRestore (E.unify Γ pattern t)).Ends X false X :=
          ends_orRestore.mpr (.inr ⟨.refl _, W, hW, by rw [supply_of_ends_unify hW]⟩)
        rw [ends_bind_of_ends hrestore]
        exact Iff.rfl
      · exact Iff.rfl
    constructor
    · intro h
      rw [matchFirst] at h
      split at h
      · rename_i hhead
        obtain ⟨solved, W, hW, hrest⟩ := h.bind
        rcases ends_orRestore.mp hW with ⟨rfl, hunify⟩ | ⟨rfl, V, hunify, -⟩
        · obtain ⟨-, rfl⟩ := hrest.pure
          exact .inl ⟨t, hhead, hunify, [], ms, .refl _, forall_mem_nil _⟩
        · have ht : E.Passes Γ pattern X t := fun _ => ⟨V, hunify⟩
          have hrest := (hpass ht).mp (by rw [matchFirst, if_pos hhead]; exact h)
          exact (ih.mp hrest).imp (fun ⟨m, hm⟩ => ⟨m, hm.cons ht⟩) fun ⟨hXZ, hms⟩ =>
            ⟨hXZ, forall_mem_cons.mpr ⟨ht, hms⟩⟩
      · rename_i hhead
        have ht : E.Passes Γ pattern X t := fun h => absurd h hhead
        exact (ih.mp h).imp (fun ⟨m, hm⟩ => ⟨m, hm.cons ht⟩) fun ⟨hXZ, hms⟩ =>
          ⟨hXZ, forall_mem_cons.mpr ⟨ht, hms⟩⟩
    · rintro (⟨m, hm⟩ | ⟨rfl, hms⟩)
      · rcases hm.of_cons with rfl | ⟨ht, hm⟩
        · rw [matchFirst, if_pos hm.head]
          have hrestore : (orRestore (E.unify Γ pattern t)).Ends X true Z :=
            ends_orRestore.mpr (.inl ⟨.refl _, hm.unifies⟩)
          exact (ends_bind_of_ends hrestore).mpr (ends_pure.mpr ⟨.refl _, .refl _⟩)
        · exact (hpass ht).mpr (ih.mpr (.inl ⟨m, hm⟩))
      · rw [forall_mem_cons] at hms
        exact (hpass hms.1).mpr (ih.mpr (.inr ⟨.refl _, hms.2⟩))

lemma not_fails_matchFirst : ¬ (E.matchFirst Γ pattern ms).Fails X e := by
  induction ms generalizing X with
  | nil => exact not_fails_pure
  | cons t ms ih =>
    rw [matchFirst]
    split
    · intro h
      obtain ⟨solved, W, -, h⟩ := (fails_bind.mp h).resolve_left not_fails_orRestore_unify
      cases solved with
      | true => exact not_fails_pure h
      | false => exact ih h
    · exact ih

/-! ## Failures of instance resolution -/

lemma not_fails_applyHypothesis {c : Name} {h : Local} : ¬ (E.applyHypothesis Γ c type h).Fails X e := by
  simp only [applyHypothesis, instantiate, fails_bind, not_fails_get, not_fails_pure, and_false, exists_false, false_or]
  rintro ⟨found, Z, -, h⟩
  split at h
  · split at h
    · exact not_fails_pure h
    · obtain ⟨solved, W, -, h⟩ := (fails_bind.mp h).resolve_left not_fails_unify
      cases solved <;> exact not_fails_pure h
  · exact not_fails_pure h

lemma not_fails_fittingHypotheses {c : Name} : ¬ (E.fittingHypotheses Γ c type).Fails X e := by
  refine not_fails_attempts fun h X => ?_
  simp only [fails_bind, not_fails_applyHypothesis, not_fails_pure, and_false, exists_false, or_false,
    not_false_eq_true]

/-- Where no instance is found, an expression cannot be elaborated. -/
lemma elaboration_of_fails_resolve {depth : Nat} (h : (E.resolve depth Γ type).Fails X e) :
    ∃ e', e = .elaboration e' := by
  cases depth with
  | zero => exact ⟨_, (fails_throw.mp h).symm⟩
  | succ depth =>
    by_cases htype : ∃ c ls, type.head = .const c ls
    · obtain ⟨c, ls, htype⟩ := htype
      rw [resolve_succ htype] at h
      obtain ⟨hs, Y, -, h⟩ := (fails_bind.mp h).resolve_left not_fails_fittingHypotheses
      obtain ⟨is, Z, -, h⟩ := (fails_bind.mp h).resolve_left not_fails_fittingInstances
      unfold choose at h
      split at h
      · exact ⟨_, (fails_throw.mp h).symm⟩
      · simp only [instantiate, fails_bind, not_fails_goTo, not_fails_get,
          not_fails_pure, and_false, exists_false, or_false] at h
      · exact ⟨_, (fails_throw.mp h).symm⟩
    · rw [resolve] at h
      split at h
      · rename_i c ls hc
        exact absurd ⟨c, ls, hc⟩ htype
      · exact ⟨_, (fails_throw.mp h).symm⟩

lemma elaboration_of_fails_resolveGoal {g : Goal} (h : (E.resolveGoal g).Fails X e) : ∃ e', e = .elaboration e' := by
  simp only [resolveGoal, instantiate, fails_bind, not_fails_get, not_fails_pure,
    not_fails_modify, and_false, exists_false, or_false, false_or] at h
  obtain ⟨_, _, -, h⟩ := h
  exact elaboration_of_fails_resolve h

lemma elaboration_of_fails_resolveKnown {gs : List Goal} (h : (E.resolveKnown gs).Fails X e) :
    ∃ e', e = .elaboration e' := by
  induction gs generalizing X with
  | nil => exact absurd h not_fails_pure
  | cons g gs ih =>
    obtain ⟨μ, Z, -, h⟩ := (fails_bind.mp h).resolve_left not_fails_get
    split at h
    · exact ih h
    · simp only [instantiate, fails_bind, not_fails_get, not_fails_pure, and_false, exists_false, false_or] at h
      obtain ⟨t, Z, -, h⟩ := h
      split at h
      · simp only [fails_bind, not_fails_pure, and_false, exists_false, or_false] at h
        exact ih h
      · simp only [fails_bind, not_fails_pure, and_false, exists_false, or_false] at h
        rcases h with h | ⟨_, _, -, h⟩
        · exact elaboration_of_fails_resolveGoal h
        · exact ih h

lemma elaboration_of_fails_resolveRounds {rounds : Nat} (h : (E.resolveRounds rounds).Fails X e) :
    ∃ e', e = .elaboration e' := by
  induction rounds generalizing X with
  | zero => exact absurd h not_fails_pure
  | succ rounds ih =>
    simp only [resolveRounds, fails_bind, not_fails_get, not_fails_modify, false_or] at h
    obtain ⟨_, _, -, h | ⟨_, _, -, _, _, -, h⟩⟩ := h
    · exact elaboration_of_fails_resolveKnown h
    · split at h
      · exact ih h
      · exact absurd h not_fails_pure

/-- A goal that is closed by a term fails only for an instance that is not found. -/
lemma elaboration_of_fails_closeWith {g : Goal} (h : (E.closeWith g m).Fails X e) : ∃ e', e = .elaboration e' := by
  simp only [closeWith, resolvePending, Bool.false_eq_true, if_false, fails_bind, not_fails_get,
    not_fails_modify, not_fails_pure, and_false, exists_false, or_false, false_or] at h
  obtain ⟨_, _, -, h⟩ := h
  exact elaboration_of_fails_resolveRounds h

/-! ## Rewriting -/

/-- The expression elaborates in the context of the first goal `g` to a proof `m` of the equation, in the
situation `Y`. -/
structure Equates (E : Elaborator) (R : Recursion) (e : Expr) (goals : List Goal) (X : Situation) (g : Goal)
    (rest : List Goal) (m : Term) (eqn : Equation) (Y : Situation) : Prop where
  main : (mainGoal goals).Ends X (g, rest) X
  elaborates : ∃ m₀ type₀ Z type, (R.visit g.context e none).Ends X (m₀, type₀) Z ∧
    (E.saturate g.context E.fuel m₀ type₀).Ends Z (m, type) Y ∧ (Y.metas.instantiate type).equation? = some eqn

/-- The target is found to be a proposition. -/
def Proposes (E : Elaborator) (g : Goal) (Y : Situation) : Prop :=
  ∃ level, (E.sortOf g.context g.target).Ends Y level Y ∧ (Y.metas.instantiateLevel level).isZero = true

/-- The holes of the pattern are settled at its first match in the target, if it has any. -/
def Settles (E : Elaborator) (g : Goal) (pattern : Term) (Y Z : Situation) : Prop :=
  if pattern.hasHole then (E.matchFirst g.context pattern g.target.closedSubterms).Ends Y () Z else Y = Z

lemma situation_of_ends_sortOf {l : Level} (h : (E.sortOf Γ m).Ends X l Y) : Y = X := by
  simp only [sortOf, ends_bind, ends_getSupply, ends_get, ends_lift, FreshM.ends_ofElaboration] at h
  obtain ⟨_, _, ⟨rfl, rfl⟩, _, _, ⟨rfl, rfl⟩, ⟨-, hs⟩, hμ⟩ := h
  exact congrArg₂ Situation.mk hs.symm hμ.symm

lemma elaboration_of_fails_sortOf (h : (E.sortOf Γ m).Fails X e) : ∃ e', e = .elaboration e' := by
  simp only [sortOf, fails_bind, not_fails_getSupply, not_fails_get, false_or, fails_lift,
    FreshM.fails_ofElaboration] at h
  obtain ⟨_, _, -, _, _, -, e', -, rfl⟩ := h
  exact ⟨e', .refl _⟩

/-- The step after the pattern is settled: its occurrences become the other side of the equation. -/
def replaceIn (E : Elaborator) (g : Goal) (rest : List Goal) (m : Term) (eqn : Equation) (reverse : Bool)
    (occurrence : Option Nat) : ElabM (List Goal) := do
  let μ ← get
  let source := μ.instantiate (eqn.source reverse)
  let some body := g.target.abstractOccurrences source occurrence | failTactic g (.noMatch source)
  let g' ← FreshM.declare g.context (body.instantiate (μ.instantiate (eqn.source !reverse)))
  let eqn := { eqn with level := μ.instantiateLevel eqn.level, type := μ.instantiate eqn.type }
  let motive : Term := .lam ⟨"x"⟩ eqn.type body
  let proof :=
    if reverse then eqn.substitute motive m g'.hole
    else eqn.reverse.substitute motive (eqn.symm m) g'.hole
  E.closeWith g proof
  prune (g' :: ((← newGoals m) ++ rest))

section Rewriting

variable {expr : Expr} {reverse : Bool} {occurrence : Option Nat} {goals goals' rest : List Goal} {g : Goal}
  {m p : Term} {eqn : Equation}

/-- What rewriting does once it has an equation. -/
def rewriteBy (E : Elaborator) (g : Goal) (rest : List Goal) (m : Term) (eqn : Equation) (reverse : Bool)
    (occurrence : Option Nat) : ElabM (List Goal) := do
  let level ← E.sortOf g.context g.target
  if !((← get).instantiateLevel level).isZero then failTactic g (.wrongGoalShape .proposition)
  if (eqn.source reverse).hasHole then E.matchFirst g.context (eqn.source reverse) g.target.closedSubterms
  E.replaceIn g rest m eqn reverse occurrence

lemma rw_eq (R : Recursion) (expr : Expr) (reverse : Bool) (occurrence : Option Nat) (goals : List Goal) :
    E.rw R expr reverse occurrence goals = (do
      let (g, rest) ← mainGoal goals
      let (m, type) ← R.visit g.context expr none
      let (m, type) ← E.saturate g.context E.fuel m type
      let type ← instantiate type
      let some eqn := type.equation? | failTactic g (.notAnEquation type)
      E.rewriteBy g rest m eqn reverse occurrence) := by
  cases reverse <;> exact Eq.refl _

lemma Equates.fails_rw_iff (h : E.Equates R expr goals X g rest m eqn Y) :
    (E.rw R expr reverse occurrence goals).Fails X e ↔ (E.rewriteBy g rest m eqn reverse occurrence).Fails Y e := by
  obtain ⟨m₀, type₀, Z, type, hvisit, hsaturate, heqn⟩ := h.elaborates
  rw [rw_eq, fails_bind_of_ends h.main, fails_bind_of_ends hvisit, fails_bind_of_ends hsaturate,
    fails_bind_of_ends (ends_instantiate.mpr ⟨.refl _, .refl _⟩)]
  simp only [heqn]

/-- Settling a pattern never fails. -/
lemma fails_rewriteBy_noMatch_iff :
    (E.rewriteBy g rest m eqn reverse occurrence).Fails Y (.tactic ⟨.noMatch p, some g⟩) ↔
      E.Proposes g Y ∧ ∃ Z, E.Settles g (eqn.source reverse) Y Z ∧
        (E.replaceIn g rest m eqn reverse occurrence).Fails Z (.tactic ⟨.noMatch p, some g⟩) := by
  -- the rest after the target is found to be a proposition
  have hsettle : ElabM.Fails (do
        if (eqn.source reverse).hasHole then E.matchFirst g.context (eqn.source reverse) g.target.closedSubterms
        E.replaceIn g rest m eqn reverse occurrence) Y (.tactic ⟨.noMatch p, some g⟩) ↔
      ∃ Z, E.Settles g (eqn.source reverse) Y Z ∧
        (E.replaceIn g rest m eqn reverse occurrence).Fails Z (.tactic ⟨.noMatch p, some g⟩) := by
    unfold Settles
    split
    · simp only [fails_bind, not_fails_matchFirst, false_or]
      constructor
      · rintro ⟨_, Z, h⟩
        exact ⟨Z, h⟩
      · rintro ⟨Z, h⟩
        exact ⟨(), Z, h⟩
    · constructor
      · exact fun h => ⟨Y, .refl _, h⟩
      · rintro ⟨_, hYZ, h⟩
        exact hYZ ▸ h
  constructor
  · intro hfails
    rcases fails_bind.mp hfails with h | ⟨level, Y', hsort, h⟩
    · exact absurd (elaboration_of_fails_sortOf h) (by simp)
    · obtain rfl := situation_of_ends_sortOf hsort
      rw [fails_bind_of_ends (ends_get.mpr ⟨.refl _, .refl _⟩)] at h
      dsimp only at h
      split at h
      · simp [failTactic] at h
      · rename_i hzero
        exact ⟨⟨level, hsort, by simpa using hzero⟩, hsettle.mp h⟩
  · rintro ⟨⟨level, hsort, hzero⟩, h⟩
    unfold rewriteBy
    rw [fails_bind_of_ends hsort, fails_bind_of_ends (ends_get.mpr ⟨.refl _, .refl _⟩)]
    simp only [hzero]
    exact hsettle.mpr h

/-- After the pattern is settled, there is no match exactly if it does not occur. -/
lemma fails_replaceIn_noMatch_iff :
    (E.replaceIn g rest m eqn reverse occurrence).Fails Z (.tactic ⟨.noMatch p, some g⟩) ↔
      Z.metas.instantiate (eqn.source reverse) = p ∧ g.target.abstractOccurrences p occurrence = none := by
  unfold replaceIn
  rw [fails_bind_of_ends (ends_get.mpr ⟨.refl _, .refl _⟩)]
  dsimp only
  split
  · rename_i body hbody
    refine iff_of_false (fun h => ?_) fun h => ?_
    · simp only [fails_bind] at h
      rcases h with h | ⟨g', _, -, h | ⟨_, _, -, h⟩⟩
      · exact FreshM.not_fails_modifyGet h
      · obtain ⟨e', he'⟩ := elaboration_of_fails_closeWith h
        simp at he'
      · simp only [newGoals, prune, fails_bind, not_fails_get, not_fails_getSupply,
          not_fails_pure, and_false, exists_false, or_false] at h
    · obtain ⟨rfl, hnone⟩ := h
      simp [hnone] at hbody
  · rename_i hnone
    rw [failTactic, fails_throw]
    constructor
    · intro h
      simp only [Failure.tactic.injEq, TacticError.mk.injEq, TacticError.Cause.noMatch.injEq] at h
      exact ⟨h.1, h.1 ▸ Option.eq_none_iff_forall_not_mem.mpr fun a ha => hnone a ha⟩
    · rintro ⟨rfl, -⟩
      exact Eq.refl _

/-- The term is an instance of the pattern: they unify, and then the pattern is written like it. -/
def IsInstance (E : Elaborator) (Γ : Context) (pattern : Term) (X : Situation) (m : Term) : Prop :=
  ∃ Z, (E.unify Γ pattern m).Ends X true Z ∧ (Z.metas.instantiate pattern).alphaEq m = true

/-- Rewriting finds no match although a part of the target is an instance of the pattern exactly if the pattern, as it
is settled, does not occur, and it has only universe metavariables to settle, or fits no part by its head, or is settled
at another part. -/
theorem rw_misses_instance_iff {s : Term} (h : E.Equates R expr goals X g rest m eqn Y)
    (hs : s ∈ g.target.closedSubterms) (hinst : E.IsInstance g.context (eqn.source reverse) Y s) :
    (∃ p, (E.rw R expr reverse none goals).Fails X (.tactic ⟨.noMatch p, some g⟩)) ↔
      E.Proposes g Y ∧
        ((eqn.source reverse).hasHole = false ∧ (eqn.source reverse).hasLevelMVar = true ∧
            ¬ (Y.metas.instantiate (eqn.source reverse)).OccursIn g.target ∨
          (eqn.source reverse).hasHole = true ∧ sameHead s (eqn.source reverse) = false ∧
            (∀ t ∈ g.target.closedSubterms, E.Passes g.context (eqn.source reverse) Y t) ∧
            ¬ (Y.metas.instantiate (eqn.source reverse)).OccursIn g.target ∨
          (eqn.source reverse).hasHole = true ∧
            ∃ t Z, E.FirstMatch g.context (eqn.source reverse) g.target.closedSubterms Y t Z ∧ t ≠ s ∧
              ¬ (Z.metas.instantiate (eqn.source reverse)).OccursIn g.target) := by
  simp only [h.fails_rw_iff, fails_rewriteBy_noMatch_iff, fails_replaceIn_noMatch_iff,
    Term.abstractOccurrences_eq_none_iff]
  obtain ⟨ν, hunify, halike⟩ := hinst
  generalize eqn.source reverse = source at *
  -- the instance is an occurrence of the pattern as it would be settled there
  have hocc : (ν.metas.instantiate source).OccursIn g.target :=
    Term.occursIn_of_mem_closedSubterms hs (Term.alphaEq_iff.mp halike).symm
  constructor
  · rintro ⟨p, hprop, Z, hsettles, rfl, hno⟩
    refine ⟨hprop, ?_⟩
    unfold Settles at hsettles
    split at hsettles
    · rename_i hhole
      rcases ends_matchFirst_iff.mp hsettles with ⟨t, ht⟩ | ⟨rfl, hpass⟩
      · refine .inr (.inr ⟨hhole, t, Z, ht, ?_, hno⟩)
        rintro rfl
        obtain ⟨-, rfl⟩ := ht.unifies.unique hunify
        exact hno hocc
      · refine .inr (.inl ⟨hhole, ?_, hpass, hno⟩)
        by_contra hhead
        obtain ⟨W, hW⟩ := hpass s hs (by simpa using hhead)
        exact Bool.false_ne_true (hW.unique hunify).1
    · rename_i hhole
      obtain rfl := hsettles
      have hhole : source.hasHole = false := by simpa using hhole
      refine .inl ⟨hhole, ?_, hno⟩
      by_contra hlevel
      have hknown (μ : Metas) : μ.instantiate source = source :=
        μ.instantiate_of_known hhole (by simpa using hlevel)
      rw [hknown] at hno hocc
      exact hno hocc
  · rintro ⟨hprop, ⟨hhole, -, hno⟩ | ⟨hhole, -, hpass, hno⟩ | ⟨hhole, t, Z, ht, -, hno⟩⟩
    · exact ⟨_, hprop, Y, by simp [Settles, hhole], .refl _, hno⟩
    · refine ⟨_, hprop, Y, ?_, .refl _, hno⟩
      rw [Settles, if_pos hhole]
      exact ends_matchFirst_iff.mpr (.inr ⟨.refl _, hpass⟩)
    · refine ⟨_, hprop, Z, ?_, .refl _, hno⟩
      rw [Settles, if_pos hhole]
      exact ends_matchFirst_iff.mpr (.inl ⟨t, ht⟩)

end Rewriting

/-- The equation `h.{u} : A.{u} = B.{u}` in `P A.{0}`: the pattern is `A` at a universe metavariable, which is not
settled. -/
theorem universe_instance_missed :
    let A (l : Level) : Term := .const ⟨"A"⟩ [l]
    let u : Level := .param ⟨"u"⟩
    let eqn (l : Level) : Equation := ⟨.succ .one, .type, A l, .const ⟨"B"⟩ [l]⟩
    let env : Env := { decls := [⟨⟨"h"⟩, [⟨"u"⟩], (eqn u).term, .postulate⟩,
      ⟨⟨"P"⟩, [], .arrow .type .prop, .postulate⟩, ⟨⟨"A"⟩, [⟨"u"⟩], .type, .postulate⟩] }
    let E : Elaborator := { env, fuel := 5 }
    let g : Goal := ⟨⟨0, none⟩, ⟨[]⟩, (Term.const ⟨"P"⟩ []).app (A .zero)⟩
    let X : Situation := ⟨⟨1, [g]⟩, {}⟩
    let l : Level := .mvar ⟨1, none⟩
    let Y : Situation := ⟨⟨2, [g]⟩, {}⟩
    E.Equates E.recursion (.ident ⟨"h"⟩) [g] X g [] (.const ⟨"h"⟩ [l]) (eqn l) Y ∧
      A .zero ∈ g.target.closedSubterms ∧ E.IsInstance g.context ((eqn l).source false) Y (A .zero) ∧
      ∃ p, (E.rw E.recursion (.ident ⟨"h"⟩) false none [g]).Fails X (.tactic ⟨.noMatch p, some g⟩) := by
  intro A u eqn env E g X l Y
  have hequates : E.Equates E.recursion (.ident ⟨"h"⟩) [g] X g [] (.const ⟨"h"⟩ [l]) (eqn l) Y := by
    refine ⟨?_, .const ⟨"h"⟩ [l], (eqn l).term, Y, (eqn l).term, ?_, ?_, by decide⟩ <;>
      unfold ElabM.Ends FreshM.Ends Fueled.Yields <;> cbv
  have hinst : E.IsInstance g.context ((eqn l).source false) Y (A .zero) := by
    exact ⟨⟨Y.supply, { levels := [(⟨1, none⟩, .zero)] }⟩, ends_unify_of_run (by decide +kernel), by decide⟩
  have hmem : A .zero ∈ g.target.closedSubterms := by decide
  refine ⟨hequates, hmem, hinst, (rw_misses_instance_iff hequates hmem hinst).mpr ⟨⟨.zero, ?_, by decide⟩, .inl ?_⟩⟩
  · unfold ElabM.Ends FreshM.Ends Fueled.Yields; cbv
  · exact ⟨by decide, by decide, Term.abstractOccurrences_eq_none_iff.mp (by decide)⟩

end Elaborator

end ProofAssistant
