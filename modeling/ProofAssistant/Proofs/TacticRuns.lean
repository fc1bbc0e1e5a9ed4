import ProofAssistant.Proofs.TrackedGoals

/-!
# Runs of tactics

A tactic that is made of others runs these on some of the goals, while the other goals wait. Of a property of
goals and situations that depends neither on the order of the goals nor on those that are solved
(`Regroups`), it is enough to know that the basic tactics keep it, whatever other goals there are: then every
tactic made of them does so too (`Elaborator.follows_run`).
-/

namespace ProofAssistant

open ElabM Elaborator

namespace Tactic

/-- The tactic is one of the given ones, or a part of one. -/
inductive Within (ts : List Tactic) : Tactic → Prop
  | mem {t : Tactic} : t ∈ ts → Within ts t
  | seq {us : List Tactic} {t : Tactic} : Within ts (.seq us) → t ∈ us → Within ts t
  | loop {t : Tactic} : Within ts (.loop t) → Within ts t
  | focus {t : Tactic} : Within ts (.focus t) → Within ts t
  | all {t : Tactic} : Within ts (.all t) → Within ts t
  | orElseLeft {t u : Tactic} : Within ts (.orElse t u) → Within ts t
  | orElseRight {t u : Tactic} : Within ts (.orElse t u) → Within ts u

/-- The tactic is not made of others. -/
def Basic : Tactic → Prop
  | .seq _ | .loop _ | .focus _ | .all _ | .orElse .. => False
  | _ => True

/-- The tactic elaborates expressions. -/
def Elaborates : Tactic → Prop
  | .exact _ | .apply _ | .rw .. | .simp _ => True
  | _ => False

end Tactic

lemma Elaborator.id_of_instantiateGoal {g g' : Goal} {X Y : Situation} (h : (instantiateGoal g).Ends X g' Y) :
    g'.id = g.id := by
  simp only [instantiateGoal, ends_bind, ends_pure] at h
  obtain ⟨_, _, -, rfl, -⟩ := h
  exact Eq.refl _

/-- The property does not depend on the order of the goals, on how far they are instantiated, and on goals
that have been solved. -/
structure Regroups (J : List Goal → Situation → Prop) : Prop where
  perm {goals goals' : List Goal} {X : Situation} : J goals X → goals.Perm goals' → J goals' X
  solved {g : Goal} {goals : List Goal} {X : Situation} : J (g :: goals) X →
    X.metas.isAssigned g.id = true → J goals X
  instantiate {g g' : Goal} {goals : List Goal} {X : Situation} : J (g :: goals) X →
    (instantiateGoal g).Ends X g' X → J (g' :: goals) X

variable {J : List Goal → Situation → Prop} {X Y : Situation} {goals goals' others : List Goal}

namespace Regroups

lemma prune (hJ : Regroups J) (hgoals : J (goals ++ others) X) (h : (prune goals).Ends X goals' Y) :
    J (goals' ++ others) Y := by
  obtain ⟨rfl, rfl⟩ := ends_prune.mp h
  clear h
  induction goals generalizing others with
  | nil => exact hgoals
  | cons g goals ih =>
    by_cases hsolved : X.metas.isAssigned g.id = true
    · simpa [hsolved] using ih (hJ.solved hgoals hsolved)
    · -- a goal that is left waits with the others
      have hleft := ih (hJ.perm hgoals List.perm_middle.symm)
      simpa [hsolved] using hJ.perm hleft List.perm_middle

lemma mainGoal (hJ : Regroups J) (hgoals : J (goals ++ others) X) {g : Goal} {rest : List Goal}
    (h : (mainGoal goals).Ends X (g, rest) Y) : J (g :: (rest ++ others)) Y := by
  cases goals with
  | nil => exact absurd h not_ends_throw
  | cons g₀ goals =>
    obtain ⟨rfl, -⟩ := of_ends_mainGoal h
    obtain ⟨g', X', hg', h⟩ := h.bind
    obtain ⟨heq, rfl⟩ := h.pure
    obtain ⟨rfl, rfl⟩ := Prod.mk.inj heq
    exact hJ.instantiate hgoals hg'

end Regroups

namespace Elaborator

variable {E : Elaborator} {R : Recursion} {ts : List Tactic}

/-- The step keeps the property, whatever other goals there are. -/
def Follows (J : List Goal → Situation → Prop) (x : List Goal → ElabM (List Goal)) : Prop :=
  ∀ goals others goals' X Y, (x goals).Ends X goals' Y → J (goals ++ others) X → J (goals' ++ others) Y

lemma Follows.runAll (hJ : Regroups J) {t : Tactic} (ht : Follows J (R.run t)) : Follows J (runAll R t) := by
  intro goals others goals' X Y h hgoals
  induction goals generalizing others goals' X with
  | nil =>
    obtain ⟨rfl, rfl⟩ := h.pure
    exact hgoals
  | cons g goals ih =>
    obtain ⟨μ, X₁, hget, h⟩ := h.bind
    obtain ⟨rfl, rfl⟩ := ElabM.ends_get.mp hget
    split at h
    · rename_i hsolved
      exact ih others goals' X h (hJ.solved hgoals hsolved)
    · obtain ⟨new, Z, hnew, h⟩ := h.bind
      obtain ⟨rest, Y', hrest, h⟩ := h.bind
      obtain ⟨rfl, rfl⟩ := h.pure
      -- the goals that are left of the first one wait while the tactic runs on the rest
      have hfirst : J (new ++ (goals ++ others)) Z := ht [g] (goals ++ others) new X Z hnew hgoals
      have hwait : J (goals ++ (new ++ others)) Z := hJ.perm hfirst (by grind)
      have hothers := ih (new ++ others) rest Z hrest hwait
      exact hJ.perm hothers (by grind)

/-- What every basic tactic keeps is kept by every tactic made of them, by induction on their nesting. -/
lemma follows_run (hJ : Regroups J)
    (hbasic : ∀ fuel (t : Tactic), t.Within ts → t.Basic → Follows J (E.run (fuel + 1) t)) (fuel : Nat)
    {t : Tactic} (ht : t.Within ts) : Follows J (E.run fuel t) := by
  induction fuel generalizing t with
  | zero => exact fun _ _ _ _ _ h => absurd h not_ends_exhausted
  | succ fuel ih =>
    intro goals others goals' X Y hrun hgoals
    have h : (E.runForm ⟨E.visit fuel, E.run fuel⟩ t goals).Ends X goals' Y := hrun
    cases t with
    | seq us =>
      refine of_ends_foldlM (J := fun goals X => J (goals ++ others) X)
        (fun t hmem goals X goals' Y h => ?_) h hgoals
      exact ih (ht.seq hmem) goals others goals' X Y h
    | loop t =>
      obtain ⟨r, Z, hattempt, h⟩ := h.bind
      rcases of_ends_recover hattempt with ⟨goals₁, rfl, hstep⟩ | ⟨rfl, rfl⟩
      · have hstep := ih ht.loop goals others goals₁ X Z hstep hgoals
        dsimp only at h
        split at h
        · obtain ⟨rfl, rfl⟩ := h.pure
          exact hstep
        · exact ih ht goals₁ others goals' Z Y h hstep
      · obtain ⟨rfl, rfl⟩ := h.pure
        exact hgoals
    | focus t =>
      obtain ⟨⟨g, rest⟩, X₁, hmain, h⟩ := h.bind
      obtain ⟨new, Z, hnew, h⟩ := h.bind
      -- the other goals wait while the tactic runs on the first
      have hstep := ih ht.focus [g] (rest ++ others) new X₁ Z hnew (hJ.mainGoal hgoals hmain)
      rw [← List.append_assoc] at hstep
      exact hJ.prune hstep h
    | all t =>
      obtain ⟨goals₁, Z, hall, h⟩ := h.bind
      have hR : Follows J ((⟨E.visit fuel, E.run fuel⟩ : Recursion).run t) := ih ht.all
      exact hJ.prune (hR.runAll hJ goals others goals₁ X Z hall hgoals) h
    | orElse t u =>
      obtain ⟨r, Z, hattempt, h⟩ := h.bind
      rcases of_ends_recover hattempt with ⟨goals₁, rfl, hstep⟩ | ⟨rfl, rfl⟩
      · obtain ⟨rfl, rfl⟩ := h.pure
        exact ih ht.orElseLeft goals others goals₁ X Z hstep hgoals
      · exact ih ht.orElseRight goals others goals' X Y h hgoals
    | _ => exact hbasic fuel _ ht trivial goals others goals' X Y hrun hgoals

end Elaborator

end ProofAssistant
