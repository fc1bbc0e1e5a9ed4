import ProofAssistant.Expr

/-!
# Definitions by clauses

A function is defined by clauses, each a pattern for every argument and a right-hand side. The first
clause that matches applies.
-/

namespace ProofAssistant

/-- What an argument is matched against. -/
inductive Pattern where
  | var (name : Name)
  | wildcard
  | ctor (name : Name) (args : List Pattern)

namespace Pattern

/-- The pattern is a constructor. -/
def isCtor : Pattern → Bool
  | .ctor .. => true
  | _ => false

/-- The name that the pattern gives to what it matches. -/
def binder : Pattern → Name
  | .var n => n
  | _ => .anonymous

mutual

/-- The text of a pattern. -/
def print : Pattern → String
  | .var n => n.text
  | .wildcard => "_"
  | .ctor n [] => n.text
  | .ctor n (p :: ps) => "(" ++ n.text ++ " " ++ p.print ++ printAll ps ++ ")"

/-- The texts of some patterns, with a blank before each. -/
def printAll : List Pattern → String
  | [] => ""
  | p :: ps => " " ++ p.print ++ printAll ps

end

end Pattern

/-- Patterns for the arguments, and the value of the function where they match. -/
structure Clause where
  patterns : List Pattern
  rhs : Expr

/-- A function defined by clauses. -/
structure ClauseDef where
  name : Name
  levelParams : List Name
  type : Expr
  clauses : List Clause

end ProofAssistant
