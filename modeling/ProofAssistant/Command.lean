import ProofAssistant.Clause
import ProofAssistant.Failure

/-!
# Commands

What a development consists of. A command adds a declaration, or registers one that is there, and
reports on it.
-/

namespace ProofAssistant

/-- A bound variable of a declaration. -/
structure Binder where
  name : Name
  type : Expr
  implicit : Bool := false

namespace Binder

/-- The product over some binders. -/
def telescope (bs : List Binder) (body : Expr) : Expr :=
  bs.foldr (fun b body => .pi b.name b.implicit b.type body) body

/-- The product over some binders, all of them implicit. -/
def implicitTelescope (bs : List Binder) (body : Expr) : Expr :=
  telescope (bs.map fun b => { b with implicit := true }) body

end Binder

/-- A constructor as it is declared, under its last name. -/
structure CtorDecl where
  name : Name
  fields : List Binder

/-- An inductive type as it is declared. -/
structure FamilyDecl where
  name : Name
  levelParams : List Name
  params : List Binder
  sort : Level
  ctors : List CtorDecl

/-- A step of a development. -/
inductive Command where
  | postulate (name : Name) (levelParams : List Name) (type : Expr)
  | definition (name : Name) (levelParams : List Name) (type value : Expr)
  | proposition (name : Name) (levelParams : List Name) (statement proof : Expr)
  | family (d : FamilyDecl)
  | clauses (d : ClauseDef)
  | classOf (family : Name)
  | instanceOf (name : Name) (priority : UInt32)
  /-- A rule for a step of the relation `left` followed by one of `right`. -/
  | transitivity (left right rule : Name)

/-- The declaration that a command is about. -/
def Command.name : Command → Name
  | .postulate n .. => n
  | .definition n .. => n
  | .proposition n .. => n
  | .family d => d.name
  | .clauses d => d.name
  | .classOf n => n
  | .instanceOf n _ => n
  | .transitivity _ _ rule => rule

/-! ## Reports -/

/-- What a command reports. -/
inductive Notice where
  | postulate (n : Name)
  | definition (n : Name)
  | proposition (n : Name)
  | family (n : Name) (numCtors : Nat)
  | clauses (n : Name) (numEquations : Nat)
  | classOf (n : Name)
  | instanceOf (n : Name) (priority : UInt32)
  | transitivity (left right rule : Name)
  /-- A definition has parts that were left out. -/
  | incompleteDefinition (n : Name)
  /-- A proof has parts that were left out. -/
  | incompleteProof (n : Name) (numObligations : Nat)
deriving DecidableEq

namespace Notice

/-- The text of a notice. -/
def print : Notice → String
  | .postulate n => "axiom " ++ n.text
  | .definition n => "def " ++ n.text
  | .proposition n => "theorem " ++ n.text
  | .family n k => "inductive " ++ n.text ++ " with " ++ k.repr ++ " constructor(s)"
  | .clauses n k => "def " ++ n.text ++ " with " ++ k.repr ++ " equation(s)"
  | .classOf n => "class " ++ n.text
  | .instanceOf n priority =>
    "instance " ++ n.text ++ " (priority " ++ priority.toNat.repr ++ ")"
  | .transitivity left right rule => "trans " ++ left.text ++ " " ++ right.text ++ " := " ++ rule.text
  | .incompleteDefinition n => n.text ++ " is defined using sorry"
  | .incompleteProof n k => n.text ++ " has " ++ k.repr ++ " deferred obligation(s)"

end Notice

/-! ## Failures -/

/-- Why a command fails. -/
inductive CommandError where
  | failure (e : Failure)
  | duplicateRule (left right : Name)

/-- The text of the cause of a failing command. -/
def CommandError.print : CommandError → Text
  | .failure e => e.print
  | .duplicateRule left right =>
    "a transitivity rule for " ++ left.text ++ " and " ++ right.text ++ " already exists"

/-- A command that fails, by the declaration it is about. -/
structure CommandFailure where
  name : Name
  cause : CommandError

/-- The texts of a failing command, the outermost first. -/
def CommandFailure.trace (e : CommandFailure) : List Text :=
  ["while checking " ++ e.name.text, e.cause.print]

end ProofAssistant
