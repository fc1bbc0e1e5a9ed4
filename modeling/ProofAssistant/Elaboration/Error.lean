import ProofAssistant.Expr.Printer
import ProofAssistant.Goal

/-!
# Elaboration errors

Why an expression cannot be turned into a term. An error carries the context it was found in; goals
in it carry their own.
-/

namespace ProofAssistant

namespace ElabError

/-- Why an expression is rejected. -/
inductive Cause where
  | unknownIdentifier (n : Name)
  | typeMismatch (term expected inferred : Term)
  | functionExpected (term type : Term)
  | typeExpected (term type : Term)
  | cannotInferType (e : Expr)
  | unresolvedHole (goal : Goal)
  | unresolvedLevel (term : Term)
  | instanceNotFound (type : Term)
  | ambiguousInstance (type : Term) (candidates : List Name)
  /-- The newest hypothesis was asked for where there is none. -/
  | noHypothesis
  | assumptionNotFound (prop : Term)
  | unsolvedGoals (goals : List Goal)
  | incompleteProof (obligations : List Goal)
  | missingDeclaration (n : Name)

/-- The text of a cause, with terms printed in the context `Γ`. -/
def Cause.print (Γ : Context) : Cause → Text
  | .unknownIdentifier n => "unknown identifier " ++ n.text
  | .typeMismatch m expected inferred =>
    "type mismatch: " ++ m.pretty Γ ++ " has type " ++ inferred.pretty Γ ++
      " but is expected to have type " ++ expected.pretty Γ
  | .functionExpected m type => "function expected: " ++ m.pretty Γ ++ " has type " ++ type.pretty Γ
  | .typeExpected m type => "type expected: " ++ m.pretty Γ ++ " has type " ++ type.pretty Γ
  | .cannotInferType e => "cannot infer the type of " ++ e.print
  | .unresolvedHole g => "could not determine a placeholder\n" ++ g.print
  | .unresolvedLevel m => "could not determine a universe level in " ++ m.pretty Γ
  | .instanceNotFound type => "no instance of " ++ type.pretty Γ
  | .ambiguousInstance type candidates =>
    "ambiguous instances of " ++ type.pretty Γ ++ ": " ++ ", ".intercalate (candidates.map Name.text)
  | .noHypothesis => "`this` used in an empty context"
  | .assumptionNotFound prop => "no hypothesis of type " ++ prop.pretty Γ
  | .unsolvedGoals goals => "unsolved goals:\n" ++ Goal.printAll goals
  | .incompleteProof obligations =>
    "incomplete proof, " ++ obligations.length.repr ++ " deferred obligation(s):\n" ++
      Goal.printAll obligations
  | .missingDeclaration n => n.text ++ " must be declared before it can be used"

end ElabError

/-- A rejection of an expression, with the context it was found in. -/
structure ElabError where
  cause : ElabError.Cause
  context : Context

/-- The text of an elaboration error. -/
def ElabError.print (e : ElabError) : Text :=
  e.cause.print e.context

end ProofAssistant
