import ProofAssistant.Term.Printer

/-!
# Printing terms in full

A text of a term in which nothing is left out or abbreviated, so that different terms have different
texts. It is meant for comparing terms, where `Term.print` is meant for reading them.
-/

namespace ProofAssistant

/-- A level in full. -/
def Level.printFull : Level → Text
  | .zero => "0"
  | .succ l => "(succ " ++ l.printFull ++ ")"
  | .max a b => "(max " ++ a.printFull ++ " " ++ b.printFull ++ ")"
  | .imax a b => "(imax " ++ a.printFull ++ " " ++ b.printFull ++ ")"
  | .param p => p.text
  | .mvar u => "?u" ++ u.print

namespace Term

/-- The levels of a constant in full. -/
def printLevels (ls : List Level) : Text :=
  if ls.isEmpty then "" else ".\x7b" ++ Text.joinWith ", " (ls.map Level.printFull) ++ "\x7d"

/-- The text of a head in front of the texts of its arguments. -/
def printSpine (head : Text) (args : List Text) : Text :=
  if args.isEmpty then head else "(" ++ Text.joinWith " " (head :: args) ++ ")"

/-- A term in full, applied to arguments with the given texts. -/
def printFullApp : Term → (args : List Text) → Text
  | .app f a, args => f.printFullApp (a.printFullApp [] :: args)
  | .var i, args => printSpine ("#" ++ i.repr) args
  | .sort l, args => printSpine ("(sort " ++ l.printFull ++ ")") args
  | .const c ls, args => printSpine (c.text ++ printLevels ls) args
  | .ctor t i c ls, args =>
    printSpine (t.text ++ "/" ++ i.repr ++ "/" ++ c.text ++ printLevels ls) args
  | .lam x t b, args =>
    printSpine ("(λ (" ++ x.text ++ " : " ++ t.printFullApp [] ++ "), " ++ b.printFullApp [] ++ ")")
      args
  | .pi x false t b, args =>
    printSpine ("(Π (" ++ x.text ++ " : " ++ t.printFullApp [] ++ "), " ++ b.printFullApp [] ++ ")")
      args
  | .pi x true t b, args =>
    printSpine
      ("(Π \x7b" ++ x.text ++ " : " ++ t.printFullApp [] ++ "\x7d, " ++ b.printFullApp [] ++ ")")
      args
  | .free x, args => printSpine ("$" ++ x.print) args
  | .hole h false, args => printSpine ("?" ++ h.print) args
  | .hole h true, args => printSpine ("?!" ++ h.print) args

/-- A term in full. -/
def printFull (m : Term) : Text :=
  m.printFullApp []

end Term

end ProofAssistant
