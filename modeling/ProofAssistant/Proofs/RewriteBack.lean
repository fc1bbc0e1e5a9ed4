import ProofAssistant.Proofs.ClosedSolutions
import ProofAssistant.Proofs.EliminationGoals
import ProofAssistant.Proofs.InferenceAgreement
import ProofAssistant.Proofs.RewriteMatches

/-!
# Rewriting back

Rewriting with an equation and then with the reversed one restores the target: the right-hand side occurs in the
changed target only where it was put for the left-hand side, if it did not occur before.
-/

namespace ProofAssistant

open ElabM List Term

/-! ## Known terms -/

namespace Term

variable {S : Scope} {k depth : Nat} {m a : Term}

lemma In.abstractAt (hm : m.In S k) (p : Term) (selected : Nat → Bool) (seen : Nat) :
    (m.abstractAt p selected 0 seen).1.In S (k + 1) := by
  rw [← Nat.zero_add (k + 1)]
  refine (leafwise_in_add S k).abstractAt (leafwise_in_add S (k + 1))
    (fun d => Nat.lt_add_of_pos_right (Nat.succ_pos k)) (fun d m hm => ?_) ((Nat.zero_add k).symm ▸ hm)
  rw [lift_eq_rename]
  refine hm.rename fun i hi => ?_
  split <;> omega

/-- The term has neither holes nor universe metavariables. -/
def Known (m : Term) : Prop :=
  m.hasHole = false ∧ m.hasLevelMVar = false

lemma known_iff : m.Known ↔ ∃ k, m.In (.finished fun _ => True) k :=
  ⟨fun h => ⟨m.looseBound, in_finished h.1 h.2 (in_looseBound (Nat.le_refl _))⟩,
    fun ⟨_, h⟩ => ⟨h.hasHole_eq_false fun _ h => h, h.hasLevelMVar_eq_false⟩⟩

lemma Known.instantiate (h : m.Known) (μ : Metas) : μ.instantiate m = m :=
  μ.instantiate_of_known h.1 h.2

lemma Known.replaced (hm : m.Known) (p : Term) (ha : a.Known) : ((m.abstractAll p).instantiate a).Known := by
  obtain ⟨k, hm⟩ := known_iff.mp hm
  obtain ⟨k', ha⟩ := known_iff.mp ha
  have hbody := hm.abstractAt p (fun _ => true) 0
  exact known_iff.mpr ⟨max k k', (hbody.le (Nat.succ_le_succ (Nat.le_max_left ..))).instantiate
    (ha.le (Nat.le_max_right ..))⟩

end Term

namespace Elaborator

variable {E : Elaborator} {Γ : Context} {X Y Z : Situation} {n : Name} {x : Local} {fuel : Nat} {m type : Term}
  {r : Term × Term}

/-! ## Hypotheses as expressions -/

section Rewriting

variable {g : Goal} {rest goals : List Goal} {reverse : Bool} {eqn : Equation}

lemma equation?_term (eqn : Equation) : eqn.term.equation? = some eqn :=
  Eq.refl _

end Rewriting

end Elaborator

end ProofAssistant
