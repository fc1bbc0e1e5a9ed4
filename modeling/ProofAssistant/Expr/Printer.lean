import ProofAssistant.Expr
import ProofAssistant.Term.Printer

/-!
# Printing expressions and tactics
-/

namespace ProofAssistant

/-- A word for each name, with a blank before each. -/
def Name.spaced (names : List Name) : String :=
  String.join (names.map fun n => " " ++ n.text)

namespace Expr

/-- An argument of this form is bracketed. -/
def isCompound : Expr → Bool
  | .app .. | .lam .. | .pi .. | .script _ => true
  | _ => false

/-- A domain of this form is bracketed before an arrow. -/
def isBinding : Expr → Bool
  | .lam .. | .pi .. => true
  | _ => false

end Expr

/-- A tactic of this form is bracketed after `repeat` and `all`. -/
def Tactic.isCompound : Tactic → Bool
  | .seq _ | .orElse .. => true
  | _ => false

mutual

/-- The text of an expression. -/
def Expr.print : Expr → Text
  | .ident n => n.text
  | .explicit n => "@" ++ n.text
  | .app f a => f.print ++ " " ++ Text.bracketIf a.isCompound a.print
  | .lam x (some t) b => "λ (" ++ x.text ++ " : " ++ t.print ++ "), " ++ b.print
  | .lam x none b => "λ " ++ x.text ++ ", " ++ b.print
  | .pi x false t b =>
    if x.isAnonymous then Text.bracketIf t.isBinding t.print ++ " → " ++ b.print
    else "Π (" ++ x.text ++ " : " ++ t.print ++ "), " ++ b.print
  | .pi x true t b => "Π \x7b" ++ x.text ++ " : " ++ t.print ++ "\x7d, " ++ b.print
  | .sort l => (Term.sort l).print
  | .hole => "_"
  | .deferred => "sorry"
  | .this => "this"
  | .assumption t => "‹" ++ t.print ++ "›"
  | .annot e t => "(" ++ e.print ++ " : " ++ t.print ++ ")"
  | .term m => m.print
  | .script t => "by " ++ t.print
  | .chain .. => "calc …"

/-- The texts of some expressions. -/
def Expr.printAll : List Expr → List Text
  | [] => []
  | e :: es => e.print :: Expr.printAll es

/-- The text of a tactic. -/
def Tactic.print : Tactic → Text
  | .intro names => "intro" ++ Name.spaced names
  | .cases h names => "cases " ++ h.text ++ withNames names
  | .induction x names => "induction " ++ x.text ++ withNames names
  | .rw e reverse occurrence =>
    "rw [" ++ (if reverse then "← " else "") ++ e.print ++ "]" ++
      (match occurrence with
        | some k => " (occurrence " ++ k.repr ++ ")"
        | none => "")
  | .split => "split"
  | .assumption => "assumption"
  | .exact e => "exact " ++ e.print
  | .apply e => "apply " ++ e.print
  | .simp [] => "simp"
  | .simp (e :: es) => "simp [" ++ Text.joinWith ", " (e.print :: Expr.printAll es) ++ "]"
  | .rfl => "rfl"
  | .decide => "decide"
  | .deferred => "sorry"
  | .seq ts => Text.joinWith "; " (Tactic.printAll ts)
  | .loop t => "repeat " ++ Text.bracketIf t.isCompound t.print
  | .focus t => "\x7b " ++ t.print ++ " \x7d"
  | .all t => "all " ++ Text.bracketIf t.isCompound t.print
  | .orElse t u => "first | " ++ t.print ++ " | " ++ u.print
where
  /-- The names given to new hypotheses, if any. -/
  withNames (names : List Name) : String :=
    if names.isEmpty then "" else " with" ++ Name.spaced names

/-- The texts of some tactics. -/
def Tactic.printAll : List Tactic → List Text
  | [] => []
  | t :: ts => t.print :: Tactic.printAll ts

end

end ProofAssistant
