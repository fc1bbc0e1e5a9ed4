import ProofAssistant.Clause.Error
import ProofAssistant.Elaboration.Error
import ProofAssistant.Tactic.Error
import ProofAssistant.Typing.Error

/-!
# Failures

Everything that can go wrong between an expression and a checked term. A chain of relations also fails
where one of its steps does, and says at which.
-/

namespace ProofAssistant

mutual

/-- Why a chain of relations is rejected. -/
inductive ChainError where
  | noSteps
  | notARelation (type : Term)
  | noRule (left right : Name)
  /-- A part of the step fails by itself. -/
  | step (source : Failure)

/-- Why an expression, a proof or a definition is rejected. -/
inductive Failure where
  | type (e : TypeError)
  | elaboration (e : ElabError)
  | tactic (e : TacticError)
  | compile (e : CompileError)
  | chain (step : Nat) (context : Context) (e : ChainError)

end

mutual

/-- The text of an error at a step of a chain in the context `Γ`. -/
def ChainError.print (step : Nat) (Γ : Context) : ChainError → Text
  | .noSteps => "calc block without steps"
  | .notARelation type => "step " ++ step.repr ++ ": " ++ type.pretty Γ ++ " is not a relation"
  | .noRule left right =>
    "step " ++ step.repr ++ ": no transitivity rule for " ++ left.text ++ " followed by " ++ right.text
  | .step source => "step " ++ step.repr ++ ": " ++ source.print

/-- The text of a failure. -/
def Failure.print : Failure → Text
  | .type e => e.print
  | .elaboration e => e.print
  | .tactic e => e.print
  | .compile e => e.print
  | .chain step Γ e => e.print step Γ

end

/-- The context a failure was found in. A tactic error shows it in the goal. -/
def Failure.context? : Failure → Option Context
  | .type e => some e.context
  | .elaboration e => some e.context
  | .tactic _ => none
  | .compile e => some e.context
  | .chain _ Γ _ => some Γ

end ProofAssistant
