import ProofAssistant.Term.Printer

/-!
# Errors in recursive definitions

Why a definition by clauses is rejected. An error names the definition, and where that helps the
clause and a part of it.
-/

namespace ProofAssistant

namespace CompileError

/-- Why a definition by clauses is rejected. -/
inductive Cause where
  | noClauses
  | patternArity (expected got : Nat)
  /-- Constructor patterns stand in more than one argument position. -/
  | multipleScrutinees
  /-- A constructor pattern stands below a constructor pattern. -/
  | nestedPattern
  | notInductive (type : Term)
  | wrongConstructor (ctor family : Name)
  | fieldArity (ctor : Name) (expected got : Nat)
  | nonExhaustiveMatch (missing : List Name)
  | unreachableClause
  | nonStructuralRecursion
  | largeElimination (family : Name)
  | missingDeclaration (n : Name)
deriving DecidableEq

/-- The text of a cause, with terms printed in the context `Γ`. -/
def Cause.print (Γ : Context) : Cause → Text
  | .noClauses => "no clauses"
  | .patternArity expected got =>
    got.repr ++ " patterns given, but " ++ expected.repr ++ " expected"
  | .multipleScrutinees => "constructor patterns are only supported in one argument position"
  | .nestedPattern => "nested patterns are not supported"
  | .notInductive type => "cannot match on a value of type " ++ type.pretty Γ
  | .wrongConstructor c t => c.text ++ " is not a constructor of " ++ t.text
  | .fieldArity c expected got =>
    c.text ++ " has " ++ expected.repr ++ " fields, but " ++ got.repr ++ " patterns were given"
  | .nonExhaustiveMatch missing =>
    "non-exhaustive match, missing " ++ ", ".intercalate (missing.map Name.text)
  | .unreachableClause => "redundant clause"
  | .nonStructuralRecursion => "recursive call is not on a constructor field"
  | .largeElimination t => t.text ++ " can only be eliminated into Prop"
  | .missingDeclaration n => n.text ++ " must be declared to state equations"

end CompileError

/-- A rejection of a definition by clauses. -/
structure CompileError where
  name : Name
  cause : CompileError.Cause
  /-- The clause at fault, counted from zero. -/
  clause : Option Nat := none
  /-- The part of the clause at fault. -/
  term : Option Term := none
  context : Context := {}
deriving DecidableEq

/-- The text of an error in a definition by clauses. Clauses are counted from one. -/
def CompileError.print (e : CompileError) : Text :=
  let clause : String :=
    match e.clause with
    | some k => " (clause " ++ (k + 1).repr ++ ")"
    | none => ""
  let part : Text :=
    match e.term with
    | some m => "\n  in: " ++ m.pretty e.context
    | none => ""
  e.name.text ++ ": " ++ e.cause.print e.context ++ clause ++ part

end ProofAssistant
