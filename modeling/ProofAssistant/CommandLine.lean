import ProofAssistant.Showcase

/-!
# The command line

The program checks the prelude and the showcase, and says how many declarations it has checked.
Arguments are read from the left; the first that is wrong, or that asks for a text, settles the answer.
-/

namespace ProofAssistant

/-- What the arguments ask for. -/
structure Arguments where
  allowDeferred : Bool := false
  list : Bool := false
  simpMaxSteps : Option Nat := none
deriving DecidableEq

namespace Arguments

/-- Why arguments do not lead to a check. -/
inductive Stop where
  | help
  | version
  | misuse
deriving DecidableEq

/-- The largest number that an argument may be. -/
def maxNumber : Nat := 18446744073709551615

/-- Reads a number: decimal digits, possibly after a plus sign. -/
def number? (s : String) : Option Nat :=
  let digits :=
    match s.toList with
    | '+' :: ds => ds
    | ds => ds
  if digits.isEmpty || !digits.all Char.isDigit then none
  else
    let n := digits.foldl (fun n d => 10 * n + (d.toNat - '0'.toNat)) 0
    if n ≤ maxNumber then some n else none

/-- Sets the bound on rewriting steps, which may be given once. -/
def setSteps (as : Arguments) (value : String) : Except Stop Arguments :=
  match as.simpMaxSteps, number? value with
  | none, some n => return { as with simpMaxSteps := some n }
  | _, _ => throw .misuse

/-- Reads an option of one letter. -/
def short : List Char → Stop
  | 'v' :: _ => .version
  | 'h' :: _ => .help
  | _ => .misuse

/-- Reads arguments after those that have been read into `as`. -/
def parseFrom (as : Arguments) : List String → Except Stop Arguments
  | [] => return as
  | "--" :: rest => if rest.isEmpty then return as else throw .misuse
  | "--help" :: _ => throw .help
  | "--version" :: _ => throw .version
  | "--allow-sorry" :: rest =>
    if as.allowDeferred then throw .misuse else parseFrom { as with allowDeferred := true } rest
  | "--list" :: rest => if as.list then throw .misuse else parseFrom { as with list := true } rest
  | "--simp-max-steps" :: value :: rest => do parseFrom (← as.setSteps value) rest
  | arg :: rest =>
    match arg.toList with
    | '-' :: '-' :: name => do
      let flag := "simp-max-steps=".toList
      if flag.isPrefixOf name then
        parseFrom (← as.setSteps (String.ofList (name.drop flag.length))) rest
      else throw .misuse
    | '-' :: letters => throw (short letters)
    | _ => throw .misuse

/-- Reads the arguments. -/
def parse (args : List String) : Except Stop Arguments :=
  parseFrom {} args

/-- The options of elaboration that the arguments ask for. -/
def options (as : Arguments) : Options :=
  { allowDeferred := as.allowDeferred, simpMaxSteps := as.simpMaxSteps }

end Arguments

/-- What the program answers: its exit code, and what it writes. -/
structure Answer where
  code : UInt8
  out : String := ""
  err : String := ""
deriving DecidableEq

namespace Answer

/-- The text of the version. -/
def version : String := "hashi 0.1.0\n"

/-- The text of the help. -/
def help : String :=
  "Usage: hashi [OPTIONS]\n" ++
  "\n" ++
  "Options:\n" ++
  "      --allow-sorry         Accept proofs containing `sorry` and report them as warnings\n" ++
  "      --list                Print every declaration of the checked environment\n" ++
  "      --simp-max-steps <N>  Bound the number of rewrites a single `simp` may perform\n" ++
  "  -v, --version             Print version\n" ++
  "  -h, --help                Print help\n"

/-- The line of a declaration. -/
def declarationLine (d : Decl) : String :=
  d.name.text ++ " : " ++ d.type.print.toString

/-- The answer after everything has been checked. -/
def checked (as : Arguments) (env : Env) : Answer :=
  let lines := if as.list then env.declarations.map declarationLine else []
  let last := "checked " ++ env.size.repr ++ " declarations"
  { code := 0, out := String.join ((lines ++ [last]).map (· ++ "\n")) }

/-- The answer to the given arguments. -/
def ofArguments (args : List String) : Option Answer :=
  match Arguments.parse args with
  | .error .help => some { code := 0, out := help }
  | .error .version => some { code := 0, out := version }
  | .error .misuse => some { code := 2, err := help }
  | .ok as => do
    let (result, s) ← (Session.checkAll.run).run { options := as.options }
    match result with
    | .ok () => return checked as s.env
    | .error e => return { code := 1, err := "Error: " ++ ": ".intercalate (e.trace.map Text.toString) ++ "\n" }

end Answer

end ProofAssistant
