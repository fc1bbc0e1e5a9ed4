import ProofAssistant.Goal

/-!
# Tactic errors

Why a tactic does not apply to a goal. An error carries the goal, if there was one.
-/

namespace ProofAssistant

namespace TacticError

/-- What a target should have been. -/
inductive Shape where
  | singleConstructor
  | proposition
  | equation
deriving DecidableEq

/-- The text of a shape. -/
def Shape.print : Shape → String
  | .singleConstructor => "an inductive type with a single constructor"
  | .proposition => "a proposition"
  | .equation => "an equation"

/-- Why a tactic does not apply. -/
inductive Cause where
  | noGoals
  | nothingToIntroduce
  | noMatch (pattern : Term)
  | noAssumptionFound
  | notInductive (type : Term)
  | wrongGoalShape (expected : Shape)
  | unknownHypothesis (n : Name)
  | typeMismatch (expected inferred : Term)
  | notDefEq (lhs rhs : Term)
  | largeElimination (target : Term)
  | noProgress
  | decisionFailed
  | notAnEquation (type : Term)
deriving DecidableEq

/-- The text of a cause, with terms printed in the context `Γ`. -/
def Cause.print (Γ : Context) : Cause → Text
  | .noGoals => "no goals"
  | .nothingToIntroduce => "nothing to introduce"
  | .noMatch pattern => "did not find an instance of " ++ pattern.pretty Γ ++ " in the target"
  | .noAssumptionFound => "no hypothesis matches the target"
  | .notInductive type => type.pretty Γ ++ " is not an inductive type"
  | .wrongGoalShape expected => "the target is not " ++ expected.print
  | .unknownHypothesis n => "unknown hypothesis " ++ n.text
  | .typeMismatch expected inferred =>
    "type mismatch: expected " ++ expected.pretty Γ ++ ", but the term has type " ++ inferred.pretty Γ
  | .notDefEq lhs rhs => lhs.pretty Γ ++ " and " ++ rhs.pretty Γ ++ " are not definitionally equal"
  | .largeElimination target =>
    "cannot eliminate a proposition into " ++ target.pretty Γ ++ ", which is not a proposition"
  | .noProgress => "simp made no progress"
  | .decisionFailed => "no decision procedure proved the target"
  | .notAnEquation type => type.pretty Γ ++ " is not an equation"

end TacticError

/-- A tactic that does not apply, with the goal it was applied to. -/
structure TacticError where
  cause : TacticError.Cause
  goal : Option Goal
deriving DecidableEq

/-- The text of a tactic error: the cause, and the goal below it. -/
def TacticError.print (e : TacticError) : Text :=
  match e.goal with
  | some g => e.cause.print g.context ++ "\n" ++ g.print
  | none => e.cause.print {}

end ProofAssistant
