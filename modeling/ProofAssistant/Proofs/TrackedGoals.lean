import ProofAssistant.Proofs.FreshHypotheses

/-!
# Goals that are kept track of

No step drops a goal that has not been solved: `Metas.Accounts`. For steps that only solve the first goal
this is part of `ElabM.Refines`. The steps that elaborate an expression first look for holes in a term
(`Elaborator.LooksIn`), and make the open ones goals. They miss none of those: `Situation.Gathers`.
-/

namespace ProofAssistant

open ElabM Alphabet List

variable {g : Goal} {rest before : List Goal} {m target : Term}

/-! ## Growing solutions -/

namespace Metas.Accounts

variable {μ μ' : Metas} {goals goals' goals'' : List Goal}

lemma refl (μ : Metas) (goals : List Goal) : μ.Accounts goals goals :=
  fun g hg => .inr ⟨g, hg, rfl⟩

lemma trans (h : μ.Accounts goals goals') (hμ : μ.Grows μ') (h' : μ'.Accounts goals' goals'') :
    μ'.Accounts goals goals'' := by
  intro g hg
  rcases h g hg with hsolved | ⟨g', hg', hid⟩
  · exact .inl (hμ.solved g.id hsolved)
  · exact hid ▸ h' g' hg'

lemma append (h : μ.Accounts goals goals') (others : List Goal) :
    μ.Accounts (goals ++ others) (goals' ++ others) := by
  intro g hg
  rcases mem_append.mp hg with hg | hg
  · exact (h g hg).imp_right fun ⟨g', hg', hid⟩ => ⟨g', mem_append_left _ hg', hid⟩
  · exact .inr ⟨g, mem_append_right _ hg, rfl⟩

end Metas.Accounts

namespace ElabM

variable {α : Type} {P : Nat → α → Prop} {x : ElabM α} {X Y : Situation} {a : α}

/-- What stays over every alphabet takes no number back and loses no solution. -/
lemma grows_of_keeps (hx : ∀ n μ₀, Keeps ((all n).invariant μ₀) x (P n)) (h : x.Ends X a Y) :
    X.supply.next ≤ Y.supply.next ∧ X.metas.Grows Y.metas := by
  have hμ : X.metas.OverSince (.all X.supply.next) X.metas := ⟨X.metas.over_all, .refl _⟩
  obtain ⟨hs, hμ, -⟩ := (hx X.supply.next X.metas).of_ends (Supply.over_all (Nat.le_refl _)) hμ h
  exact ⟨hs.start, hμ.grows⟩

/-- A step that refines goals loses none of them, and no solution. -/
lemma accounts_of_refines {x : ElabM (List Goal)} {goals goals' : List Goal}
    (hx : ∀ n μ₀, x.Refines (.all n) n μ₀ goals) (h : x.Ends X goals' Y) :
    X.metas.Grows Y.metas ∧ Y.metas.Accounts goals goals' := by
  have hμ : X.metas.OverSince (.all X.supply.next) X.metas := ⟨X.metas.over_all, .refl _⟩
  obtain ⟨new, hnew⟩ := hx _ _ X (Supply.over_all (Nat.le_refl _)) hμ goals' Y h
  obtain ⟨-, hμ, -⟩ := hnew.conforms fun _ _ => trivial
  exact ⟨hμ.grows, fun g hg => hnew.accounts g (mem_append_right _ hg)⟩

end ElabM

/-- Every open hole of the term is that of a goal, or waits for an instance. -/
def Situation.Gathers (X : Situation) (goals : List Goal) (c : Term) : Prop :=
  ∀ g ∈ X.metas.openGoals X.supply c, g ∈ goals ∨ ∃ p ∈ X.metas.pending, p.id = g.id

namespace Elaborator

variable {E : Elaborator} {R : Recursion} {X Y : Situation} {goals goals' : List Goal}
variable {t : Tactic} {c : Term} {e : Expr}

lemma grows_of_run {fuel : Nat} (h : (E.run fuel t goals).Ends X goals' Y) :
    X.supply.next ≤ Y.supply.next ∧ X.metas.Grows Y.metas :=
  grows_of_keeps (fun n _ =>
    (recursion_over (covers_all n E) fuel).run t.over_all fun g _ => g.over_all) h

/-! ## Steps that elaborate -/

lemma of_ends_mainGoal (h : (mainGoal goals).Ends X (g, rest) Y) :
    X = Y ∧ ∃ g₀, goals = g₀ :: rest ∧ g.id = g₀.id ∧ g.hole = g₀.hole := by
  cases goals with
  | nil => exact absurd h not_ends_throw
  | cons g₀ goals =>
    obtain ⟨heq, rfl⟩ := ends_mainGoal.mp h
    obtain ⟨rfl, rfl⟩ := Prod.mk.inj heq
    refine ⟨Eq.refl _, g₀, Eq.refl _, Eq.refl _, ?_⟩
    simp only [Goal.known, Goal.hole, Goal.holeAs, Context.terms, map_map]
    exact Eq.refl _

lemma ends_newGoals : (newGoals m).Ends X goals Y ↔
    (X.metas.openGoals X.supply m).filter (!(X.metas.pending.map Goal.id).contains ·.id) = goals ∧ X = Y := by
  simp only [newGoals, ends_bind, ends_get, ends_getSupply, ends_pure]
  constructor
  · rintro ⟨_, _, ⟨rfl, rfl⟩, _, _, ⟨rfl, rfl⟩, h⟩
    exact h
  · exact fun h => ⟨_, _, ⟨Eq.refl _, Eq.refl _⟩, _, _, ⟨Eq.refl _, Eq.refl _⟩, h⟩

/-- The term in which a step from `X` looks for holes that become goals: the solution of the first goal, or
the equation that it rewrites with. -/
inductive LooksIn (E : Elaborator) (R : Recursion) (goals : List Goal) (X : Situation) : Tactic → Term → Prop
  | exact {e : Expr} {g : Goal} {rest : List Goal} : goals = g :: rest → LooksIn E R goals X (.exact e) g.hole
  | apply {e : Expr} {g : Goal} {rest : List Goal} : goals = g :: rest → LooksIn E R goals X (.apply e) g.hole
  | rw {e : Expr} {reverse : Bool} {occurrence : Option Nat} {g : Goal} {rest : List Goal}
      {m type m' type' : Term} {Z Z' : Situation} : (mainGoal goals).Ends X (g, rest) X →
      (R.visit g.context e none).Ends X (m, type) Z →
      (E.saturate g.context E.fuel m type).Ends Z (m', type') Z' →
      LooksIn E R goals X (.rw e reverse occurrence) m'

/-- The first goal is solved. The open holes of the term `c` that do not wait for an instance become goals, after the
changed goal `before` if the step rewrites, and solved goals are dropped. -/
structure Closes (E : Elaborator) (R : Recursion) (t : Tactic) (goals : List Goal) (X : Situation)
    (goals' : List Goal) (Y : Situation) (c : Term) (before : List Goal) : Prop where
  looks : E.LooksIn R goals X t c
  left : ∃ g rest, goals = g :: rest ∧ Y.metas.isAssigned g.id = true ∧
    goals' = (before ++ ((Y.metas.openGoals Y.supply c).filter (!(Y.metas.pending.map Goal.id).contains ·.id) ++
      rest)).filter (!Y.metas.isAssigned ·.id)

/-- No goal is dropped that has not been solved. -/
lemma Closes.accounts (h : E.Closes R t goals X goals' Y c before) : Y.metas.Accounts goals goals' := by
  obtain ⟨g, rest, rfl, hsolved, rfl⟩ := h.left
  intro g' hg'
  rcases mem_cons.mp hg' with rfl | hg'
  · exact .inl hsolved
  · exact Y.metas.accounts_filter _ g' (by simp [hg'])

lemma Closes.gathers (h : E.Closes R t goals X goals' Y c before) : Y.Gathers goals' c := by
  obtain ⟨g, rest, rfl, -, rfl⟩ := h.left
  intro g' hg'
  by_cases hwaits : ∃ p ∈ Y.metas.pending, p.id = g'.id
  · exact .inr hwaits
  · have hopen := (Metas.of_mem_openGoals hg').2.1
    refine .inl (mem_filter.mpr ⟨mem_append_right _ (mem_append_left _ ?_), by simp [hopen]⟩)
    exact mem_filter.mpr ⟨hg', by simpa using hwaits⟩

/-- The end of a step that elaborates. -/
lemma closes_of_close (before : List Goal) {Z : Situation}
    (hmain : (mainGoal goals).Ends X (g, rest) X) (hlooks : E.LooksIn R goals X t c)
    (h : ElabM.Ends (do E.closeWith g m; prune (before ++ ((← newGoals c) ++ rest))) Z goals' Y) :
    E.Closes R t goals X goals' Y c before := by
  obtain ⟨-, g₀, rfl, hid, -⟩ := of_ends_mainGoal hmain
  simp only [closeWith, ends_bind, ends_modify, ends_newGoals, ends_prune] at h
  obtain ⟨_, _, ⟨_, W, _, rfl⟩, _, _, ⟨rfl, rfl⟩, rfl, rfl⟩ := h
  refine ⟨hlooks, g₀, rest, Eq.refl _, ?_, Eq.refl _⟩
  simp [Metas.assignGoal, hid]

lemma closes_of_exact (h : (E.exact R e goals).Ends X goals' Y) :
    ∃ c, E.Closes R (.exact e) goals X goals' Y c [] := by
  obtain ⟨⟨g, rest⟩, X₁, hmain, h⟩ := h.bind
  obtain ⟨rfl, g₀, hgoals, -, hhole⟩ := of_ends_mainGoal hmain
  obtain ⟨⟨m, type⟩, X₂, -, h⟩ := h.bind
  obtain ⟨solved, X₃, -, h⟩ := h.bind
  split at h
  · obtain ⟨_, _, -, h⟩ := h.bind
    exact absurd h not_ends_throw
  · exact ⟨_, closes_of_close [] hmain (hhole ▸ .exact hgoals) h⟩

lemma closes_of_apply (h : (E.apply R e goals).Ends X goals' Y) :
    ∃ c, E.Closes R (.apply e) goals X goals' Y c [] := by
  obtain ⟨⟨g, rest⟩, X₁, hmain, h⟩ := h.bind
  obtain ⟨rfl, g₀, hgoals, -, hhole⟩ := of_ends_mainGoal hmain
  obtain ⟨⟨m, type⟩, X₂, -, h⟩ := h.bind
  obtain ⟨m', X₃, -, h⟩ := h.bind
  exact ⟨_, closes_of_close [] hmain (hhole ▸ .apply hgoals) h⟩

/-- Rewriting declares the changed goal. -/
lemma closes_of_rw (hR : ∀ n, R.Over (.all n)) {reverse : Bool} {occurrence : Option Nat}
    (h : (E.rw R e reverse occurrence goals).Ends X goals' Y) :
    ∃ c g', E.Closes R (.rw e reverse occurrence) goals X goals' Y c [g'] ∧
      X.supply.next ≤ g'.id.number ∧ g'.id.number < Y.supply.next := by
  obtain ⟨⟨g, rest⟩, X₁, hmain, h⟩ := h.bind
  obtain ⟨rfl, -⟩ := of_ends_mainGoal hmain
  obtain ⟨⟨m, type⟩, Z, hvisit, h⟩ := h.bind
  obtain ⟨⟨m', type'⟩, Z', hsaturate, h⟩ := h.bind
  obtain ⟨type'', X₁, htype, h⟩ := h.bind
  have hX₁ : X.supply.next ≤ X₁.supply.next := by
    have hZ := (grows_of_keeps (fun n _ => (hR n).visit (fun x _ => x.type.over_all) e.over_all
      fun t _ => t.over_all) hvisit).1
    have hZ' := (grows_of_keeps (fun n _ => keeps_saturate (covers_all n E)
      (fun x _ => x.type.over_all) E.fuel m.over_all type.over_all) hsaturate).1
    have hX₁ := (grows_of_keeps (fun n _ => keeps_instantiate type'.over_all) htype).1
    exact hZ.trans (hZ'.trans hX₁)
  dsimp only at h
  split at h
  · obtain ⟨level, X₂, hlevel, h⟩ := h.bind
    obtain ⟨μ, X₃, hget, h⟩ := h.bind
    obtain ⟨X₄, hguard, h⟩ := of_ends_when h
    obtain ⟨X₅, hmatch, h⟩ := of_ends_when h
    obtain ⟨μ', X₆, hget', h⟩ := h.bind
    split at h
    · obtain ⟨g', X₇, hdeclare, h⟩ := h.bind
      refine ⟨m', g', closes_of_close [g'] hmain (.rw hmain hvisit hsaturate) h, ?_⟩
      obtain ⟨u, X₈, hclose, h⟩ := h.bind
      simp only [ends_bind, ends_newGoals, ends_prune] at h
      obtain ⟨_, _, ⟨-, rfl⟩, -, rfl⟩ := h
      have hX₂ := (grows_of_keeps (fun n _ => keeps_sortOf _) hlevel).1
      obtain ⟨-, rfl⟩ := ends_get.mp hget
      obtain rfl := hguard.resolve_left not_ends_throw
      have hX₅ : X₂.supply.next ≤ X₅.supply.next := by
        rcases hmatch with hmatch | rfl
        · exact (grows_of_keeps (fun n _ => keeps_matchFirst (covers_all n E)
            (fun x _ => x.type.over_all) (Term.over_all _) fun m _ => m.over_all) hmatch).1
        · exact Nat.le_refl _
      obtain ⟨-, rfl⟩ := ends_get.mp hget'
      have hclosed := (grows_of_keeps (fun n _ => keeps_closeWith (covers_all n E) g.over_all
        (Term.over_all _)) hclose).1
      obtain ⟨hg', hX₇⟩ := Prod.mk.inj (FreshM.ends_modifyGet.mp (ends_lift.mp hdeclare).1)
      rw [← hX₇] at hclosed
      rw [← hg']
      exact ⟨hX₁.trans (hX₂.trans hX₅), hclosed⟩
    · exact absurd h not_ends_throw
  · exact absurd h not_ends_throw

/-! ## Simplification -/

/-- The property is kept by rewriting, also if this is given up, and by closing an equation. -/
structure SimpInvariant (E : Elaborator) (R : Recursion) (es : List Expr) (K : List Goal → Situation → Prop) :
    Prop where
  rw {e : Expr} {goals goals' : List Goal} {X Y : Situation} : e ∈ es →
    (E.rw R e false none goals).Ends X goals' Y → K goals X → K goals' Y
  giveUp {e : Expr} {goals goals' : List Goal} {X Y : Situation} : e ∈ es →
    (E.rw R e false none goals).Ends X goals' Y → K goals X → K goals ⟨Y.supply, X.metas⟩
  rfl {goals goals' : List Goal} {X Y : Situation} : (E.rfl goals).Ends X goals' Y → K goals X → K goals' Y

namespace SimpInvariant

variable {es es' : List Expr} {K : List Goal → Situation → Prop}

lemma of_simpStep (hK : E.SimpInvariant R es K) (hes : es' ⊆ es) {r : Option (List Goal)}
    (h : (E.simpStep R goals target es').Ends X r Y) (hgoals : K goals X) : K (r.getD goals) Y := by
  induction es' generalizing X with
  | nil =>
    obtain ⟨rfl, rfl⟩ := h.pure
    exact hgoals
  | cons e es' ih =>
    obtain ⟨he, hes⟩ := cons_subset.mp hes
    obtain ⟨before, X₁, hget, h⟩ := h.bind
    obtain ⟨rfl, rfl⟩ := ends_get.mp hget
    obtain ⟨r', X₂, hattempt, h⟩ := h.bind
    rcases of_ends_recover hattempt with ⟨goals₁, rfl, hrw⟩ | ⟨rfl, rfl⟩
    · -- an attempt that is given up is followed by the other equations
      have hback (h : ElabM.Ends (do set X.metas; E.simpStep R goals target es') X₂ r Y) : K (r.getD goals) Y := by
        obtain ⟨_, Z, hset, h⟩ := h.bind
        obtain rfl := ends_set.mp hset
        exact ih hes h (hK.giveUp he hrw hgoals)
      dsimp only at h
      split at h
      · obtain ⟨⟨g', rest⟩, X₃, hmain, h⟩ := h.bind
        obtain ⟨rfl, -⟩ := of_ends_mainGoal hmain
        split at h
        · obtain ⟨rfl, rfl⟩ := h.pure
          exact hK.rw he hrw hgoals
        · exact hback h
      · exact hback h
    · exact ih hes h hgoals

lemma of_simpSteps (hK : E.SimpInvariant R es K) {fuel steps steps' : Nat}
    (h : (E.simpSteps R es fuel steps goals).Ends X (goals', steps') Y) (hgoals : K goals X) : K goals' Y := by
  induction fuel generalizing steps goals X with
  | zero => exact absurd h FreshM.not_ends_exhausted
  | succ fuel ih =>
    unfold simpSteps at h
    split at h
    · obtain ⟨heq, rfl⟩ := h.pure
      exact (Prod.mk.inj heq).1 ▸ hgoals
    · obtain ⟨⟨g, rest⟩, X₁, hmain, h⟩ := h.bind
      obtain ⟨rfl, -⟩ := of_ends_mainGoal hmain
      obtain ⟨r, X₂, hstep, h⟩ := h.bind
      have hstep := hK.of_simpStep (List.Subset.refl _) hstep hgoals
      cases r with
      | none =>
        obtain ⟨heq, rfl⟩ := h.pure
        exact (Prod.mk.inj heq).1 ▸ hstep
      | some goals₁ => exact ih h hstep

lemma of_simp (hK : E.SimpInvariant R es K) (h : (E.simp R es goals).Ends X goals' Y) (hgoals : K goals X) :
    K goals' Y := by
  unfold Elaborator.simp at h
  split at h
  · obtain ⟨rfl, rfl⟩ := h.pure
    exact hgoals
  obtain ⟨⟨goals₁, steps⟩, X₁, hsteps, h⟩ := h.bind
  obtain ⟨r, X₂, hattempt, h⟩ := h.bind
  have hsteps := hK.of_simpSteps hsteps hgoals
  rcases of_ends_recover hattempt with ⟨goals₂, rfl, hrfl⟩ | ⟨rfl, rfl⟩
  · obtain ⟨rfl, rfl⟩ := h.pure
    exact hK.rfl hrfl hsteps
  · dsimp only at h
    split at h
    · obtain ⟨_, _, -, h⟩ := h.bind
      exact absurd h not_ends_throw
    · obtain ⟨rfl, rfl⟩ := h.pure
      exact hsteps

end SimpInvariant

lemma accounts_of_simp (hR : ∀ n, R.Over (.all n)) {es : List Expr}
    (h : (E.simp R es goals).Ends X goals' Y) : Y.metas.Accounts goals goals' := by
  have hK : E.SimpInvariant R es fun goals' Y => X.metas.Grows Y.metas ∧ Y.metas.Accounts goals goals' := by
    refine ⟨fun _ hrw ⟨hμ, hgoals⟩ => ?_, fun _ _ hgoals => hgoals, fun hrfl ⟨hμ, hgoals⟩ => ?_⟩
    · obtain ⟨c, g', hcloses, -⟩ := closes_of_rw hR hrw
      have hgrows := (grows_of_keeps (fun n _ => keeps_rw (covers_all n E) (hR n) (Expr.over_all _) _ _
        fun g _ => g.over_all) hrw).2
      exact ⟨hμ.trans hgrows, hgoals.trans hgrows hcloses.accounts⟩
    · obtain ⟨hgrows, haccounts⟩ := accounts_of_refines (fun n _ =>
        refines_rfl (covers_all n E) (fun _ _ => trivial) fun g _ => g.over_all) hrfl
      exact ⟨hμ.trans hgrows, hgoals.trans hgrows haccounts⟩
  exact (hK.of_simp h ⟨.refl _, .refl _ _⟩).2

end Elaborator

end ProofAssistant
