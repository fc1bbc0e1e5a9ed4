import ProofAssistant.Context

/-!
# Printing terms

A term is printed with the fewest brackets that its operators and binders allow: neighbouring binders
are gathered under one `λ` or `Π`, a product whose variable is not used is an arrow, a closed chain of
successors is a numeral, and a few constants are written as operators. Implicit arguments of operators
are left out, other implicit arguments are shown.

A place in the text has a binding strength, and what stands there is bracketed if it binds less.
-/

namespace ProofAssistant

/-- How an operator stands to its arguments. -/
inductive Fixity where
  | between
  | betweenLeft
  | betweenRight
  | before
deriving DecidableEq

/-- A constant that is written as an operator. -/
structure Operator where
  symbol : String
  fixity : Fixity
  strength : Nat
  /-- How many leading arguments are left out. -/
  hidden : Nat
deriving DecidableEq

namespace Operator

/-- The number of arguments that are written. -/
def arity (op : Operator) : Nat :=
  match op.fixity with
  | .before => 1
  | _ => 2

/-- The operator of a constant. -/
def ofName? (c : Name) : Option Operator :=
  match c.text with
  | "Eq" => some ⟨"=", .between, 50, 1⟩
  | "Nat.le" => some ⟨"≤", .between, 50, 0⟩
  | "And" => some ⟨"∧", .betweenRight, 35, 0⟩
  | "Or" => some ⟨"∨", .betweenRight, 30, 0⟩
  | "Not" => some ⟨"¬", .before, 40, 0⟩
  | "Nat.add" => some ⟨"+", .betweenLeft, 65, 0⟩
  | "Nat.mul" => some ⟨"*", .betweenLeft, 70, 0⟩
  | "Mul.mul" => some ⟨"*", .betweenLeft, 70, 2⟩
  | _ => none

end Operator

/-- The number that a closed chain of `Nat.succ` over `Nat.zero` stands for. -/
def Term.numeral? : Term → Option Nat
  | .ctor t 0 _ _ => if t.text = "Nat" then some 0 else none
  | .app (.ctor t 1 _ _) m => if t.text = "Nat" then m.numeral?.map (· + 1) else none
  | _ => none

namespace Printer

/-- The strength of a place that takes anything. -/
def binderStrength : Nat := 0

/-- The strength of an arrow. -/
def arrowStrength : Nat := 25

/-- The strength of an application. -/
def appStrength : Nat := 1024

/-- The strength of a place for an argument. -/
def argStrength : Nat := 1025

/-- A text that depends on the strength of its place. -/
abbrev Placed := Nat → Text

/-- Where a term is printed. -/
inductive Place where
  /-- In a place of the given strength. -/
  | inside (strength : Nat)
  /-- After the binders of a `λ`, which more binders may join. -/
  | afterLam
  /-- After the binders of a `Π`, which more binders may join. -/
  | afterPi
deriving DecidableEq

namespace Place

/-- What divides a term at this place from the text before it, if it is no further binder. -/
def lead : Place → String
  | .inside _ => ""
  | _ => ", "

/-- The strength of the place. -/
def strength : Place → Nat
  | .inside s => s
  | _ => binderStrength

end Place

/-- A sort: `Prop`, `Type`, `Type l` for a successor and `Sort l` for any other level. -/
def sort (l : Level) : Placed := fun strength =>
  match l.base, l.offset with
  | .zero, 0 => "Prop"
  | .zero, 1 => "Type"
  | _, 0 => named strength "Sort" l
  | base, k + 1 => named strength "Type" (base.addOffset k)
where
  /-- The word for a sort with a level, which is bracketed if it is more than a single word. -/
  named (strength : Nat) (word : String) (l : Level) : Text :=
    let isWord : Bool :=
      match l with
      | .zero | .param _ | .mvar _ => true
      | .succ _ => l.base == .zero
      | _ => false
    Text.bracketIf (appStrength < strength) (word ++ " " ++ Text.bracketIf (!isWord) l.print)

/-- A hypothesis, by its name in the context or else by its identity. -/
def free (Γ : Option Context) (x : Id) : Text :=
  match Γ.bind (·.get? x) with
  | some h => h.name.text
  | none => x.print

/-- A binder with its type. -/
def binder (implicit : Bool) (x : Name) (type : Text) : Text :=
  if implicit then " \x7b" ++ x.text ++ " : " ++ type ++ "\x7d"
  else " (" ++ x.text ++ " : " ++ type ++ ")"

/-- An operator with the arguments that are written. -/
def operator (op : Operator) (args : List Placed) : Placed := fun strength =>
  let leftStrength := if op.fixity = .betweenLeft then op.strength else op.strength + 1
  let rightStrength := if op.fixity = .betweenRight then op.strength else op.strength + 1
  let text : Text :=
    match args with
    | [a] => op.symbol ++ a op.strength
    | [a, b] => a leftStrength ++ (" " ++ op.symbol ++ " ") ++ b rightStrength
    | _ => op.symbol
  Text.bracketIf (op.strength < strength) text

/-- A numeral as such, any other term by `other`. -/
def orNumeral (m : Term) (place : Place) (other : Unit → Text) : Text :=
  match m.numeral? with
  | some n => place.lead ++ Text.literal n.repr
  | none => other ()

/-- A head with its arguments. -/
def applied (place : Place) (args : List Placed) (head : Placed) : Text :=
  place.lead ++
    if args.isEmpty then head place.strength
    else
      Text.bracketIf (appStrength < place.strength)
        (head appStrength ++ Text.concat (args.map fun a => " " ++ a argStrength))

/-- The text of `m` applied to `args`, for a term `m` that is no numeral. The names are those of the
binders around `m`, the nearest first. -/
def term (Γ : Option Context) (names : List Name) (m : Term) (place : Place) (args : List Placed) :
    Text :=
  match m with
  | .app f a =>
    let arg : Placed := fun strength =>
      orNumeral a (.inside strength) fun _ => term Γ names a (.inside strength) []
    term Γ names f place (arg :: args)
  | .var i => applied place args fun _ => ((names[i]?.map Name.text).getD ("#" ++ i.repr) : String)
  | .sort l => applied place args (sort l)
  | .const c _ =>
    match Operator.ofName? c with
    | some op =>
      if args.length = op.hidden + op.arity then
        place.lead ++ operator op (args.drop op.hidden) place.strength
      else applied place args fun _ => c.text
    | none => applied place args fun _ => c.text
  | .ctor t i c ls =>
    applied place args fun strength =>
      orNumeral (.ctor t i c ls) (.inside strength) fun _ => c.text
  | .free x => applied place args fun _ => free Γ x
  | .hole h _ => applied place args fun _ => "?" ++ h.print
  | .lam x t b =>
    let type := orNumeral t (.inside binderStrength) fun _ =>
      term Γ names t (.inside binderStrength) []
    let rest := orNumeral b .afterLam fun _ => term Γ (x :: names) b .afterLam []
    let text := binder false x type ++ rest
    if place = .afterLam && args.isEmpty then text
    else applied place args fun strength => Text.bracketIf (binderStrength < strength) ("λ" ++ text)
  | .pi x implicit t b =>
    if !implicit && !b.containsVar 0 then
      let domain := orNumeral t (.inside (arrowStrength + 1)) fun _ =>
        term Γ names t (.inside (arrowStrength + 1)) []
      let codomain := orNumeral b (.inside arrowStrength) fun _ =>
        term Γ (x :: names) b (.inside arrowStrength) []
      applied place args fun strength =>
        Text.bracketIf (arrowStrength < strength) (domain ++ " → " ++ codomain)
    else
      let type := orNumeral t (.inside binderStrength) fun _ =>
        term Γ names t (.inside binderStrength) []
      let rest := orNumeral b .afterPi fun _ => term Γ (x :: names) b .afterPi []
      let text := binder implicit x type ++ rest
      if place = .afterPi && args.isEmpty then text
      else applied place args fun strength => Text.bracketIf (binderStrength < strength) ("Π" ++ text)

end Printer

namespace Term

/-- The text of a term, with the names that a context gives to hypotheses. -/
def printIn (Γ : Option Context) (m : Term) : Text :=
  Printer.orNumeral m (.inside Printer.binderStrength) fun _ =>
    Printer.term Γ [] m (.inside Printer.binderStrength) []

/-- The text of a term outside any context. -/
def print (m : Term) : Text :=
  m.printIn none

/-- The text of a term in a context. -/
def pretty (Γ : Context) (m : Term) : Text :=
  m.printIn (some Γ)

end Term

/-- The hypotheses, one line each. -/
def Context.lines (Γ : Context) : List Text :=
  Γ.locals.map fun x => x.name.text ++ " : " ++ x.type.pretty Γ

end ProofAssistant
