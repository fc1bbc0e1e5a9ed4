import ProofAssistant.Term.Printer

/-!
# Type errors

Why the kernel rejects a term or a declaration. An error carries the term it was found at and the
context of that term.
-/

namespace ProofAssistant

/-- Why a declaration is of no admitted form. -/
inductive Malformation where
  /-- A constructor was referred to as if it were a constant. -/
  | constructorAsConstant (c : Name)
  | noConstructor (family : Name) (index : Nat)
  | notAnInstance (c : Name)
  | missingParameters (family : Name) (count : Nat)
  | notASort (family : Name)
  | parametersNotTaken (ctor family : Name)
  | wrongResult (ctor : Name) (expected : Term)
deriving DecidableEq

/-- The text of a malformation. -/
def Malformation.print : Malformation → Text
  | .constructorAsConstant c => "constructor " ++ c.text ++ " must be referenced as a constructor term"
  | .noConstructor t i => t.text ++ " has no constructor #" ++ i.repr
  | .notAnInstance c => c.text ++ " does not produce a class instance"
  | .missingParameters t n => t.text ++ " expects " ++ n.repr ++ " parameters"
  | .notASort t =>
    "the type of " ++ t.text ++ " must end in a sort; indexed families are not supported"
  | .parametersNotTaken c t => c.text ++ " must take the parameters of " ++ t.text
  | .wrongResult c expected => c.text ++ " must construct " ++ expected.print

namespace TypeError

/-- Why the kernel rejects. -/
inductive Cause where
  | unboundVariable (x : Id)
  | looseBoundVariable (index : Nat)
  | unknownConstant (c : Name)
  | unknownInductive (t : Name)
  | levelArityMismatch (c : Name) (expected got : Nat)
  | undeclaredLevelParam (p : Name)
  | unexpectedLevelMVar
  | unexpectedHole (h : Id)
  | sortExpected (type : Term)
  | functionExpected (type : Term)
  | typeMismatch (expected inferred : Term)
  | notAProposition (type : Term)
  | alreadyDeclared (c : Name)
  | invalidName (c : Name)
  | nonPositive (family ctor : Name)
  | universeTooBig (ctor : Name)
  | malformed (reason : Malformation)
deriving DecidableEq

/-- The text of a cause. Terms are printed outside any context. -/
def Cause.print : Cause → Text
  | .unboundVariable x => "unbound local variable " ++ x.print
  | .looseBoundVariable i => "loose bound variable #" ++ i.repr
  | .unknownConstant c => "unknown constant " ++ c.text
  | .unknownInductive t => "unknown inductive type " ++ t.text
  | .levelArityMismatch c expected got =>
    c.text ++ " expects " ++ expected.repr ++ " universe arguments, but " ++ got.repr ++ " were given"
  | .undeclaredLevelParam p => "undeclared universe parameter " ++ p.text
  | .unexpectedLevelMVar => "unexpected universe metavariable"
  | .unexpectedHole h => "unexpected hole ?" ++ h.print
  | .sortExpected type => "type expected, but the term has type " ++ type.print
  | .functionExpected type => "function expected, but the term has type " ++ type.print
  | .typeMismatch expected inferred =>
    "type mismatch: expected " ++ expected.print ++ ", but inferred " ++ inferred.print
  | .notAProposition type => "theorem statement has type " ++ type.print ++ ", which is not Prop"
  | .alreadyDeclared c => c.text ++ " has already been declared"
  | .invalidName c => "invalid declaration name " ++ c.quoted
  | .nonPositive t c => t.text ++ " occurs in a non-positive position in " ++ c.text
  | .universeTooBig c =>
    "a field of " ++ c.text ++ " lives in a universe larger than its inductive type"
  | .malformed reason => "malformed declaration: " ++ reason.print

end TypeError

/-- A rejection by the kernel, with the term it concerns and the context of that term. -/
structure TypeError where
  cause : TypeError.Cause
  term : Term
  context : Context
deriving DecidableEq

/-- The text of a type error. -/
def TypeError.print (e : TypeError) : Text :=
  e.cause.print ++ "\n  in: " ++ e.term.pretty e.context

end ProofAssistant
