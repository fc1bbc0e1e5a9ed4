import ProofAssistant.CommandLine

/-!
# The program
-/

open ProofAssistant in
/-- Answers its arguments. -/
def main (args : List String) : IO UInt32 := do
  match Answer.ofArguments args with
  | some a =>
    IO.print a.out
    IO.eprint a.err
    return a.code.toUInt32
  | none =>
    IO.eprintln "Error: out of fuel"
    return 1
