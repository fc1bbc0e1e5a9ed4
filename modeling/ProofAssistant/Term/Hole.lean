import ProofAssistant.Term.Binding

/-!
# Holes in terms

A hole occurs applied to the hypotheses it may use, and its solution is closed over them. Solving a
hole in a term therefore contracts the abstractions of the solution with the arguments of the hole.
-/

namespace ProofAssistant

namespace Term

/-- `m` applied to `args`, with every hole of `m` that has a value replaced by it; a value is
contracted with the arguments it meets. -/
def fillHolesApp (value : Id → Option Term) (m : Term) (args : List Term) : Term :=
  if !m.hasHole then m.apply args
  else
    match m with
    | .hole h deferred =>
      match value h with
      | some v => v.beta args
      | none => (Term.hole h deferred).apply args
    | .app f a => f.fillHolesApp value (a.fillHolesApp value [] :: args)
    | .lam x t b => (Term.lam x (t.fillHolesApp value []) (b.fillHolesApp value [])).apply args
    | .pi x i t b => (Term.pi x i (t.fillHolesApp value []) (b.fillHolesApp value [])).apply args
    | m => m.apply args

/-- Replaces every hole that has a value by it. -/
def fillHoles (value : Id → Option Term) (m : Term) : Term :=
  m.fillHolesApp value []

/-- Replaces holes by their values, and holes in the values by theirs, `depth` values deep. -/
def resolveHoles (value : Id → Option Term) : (depth : Nat) → Term → Term
  | 0, m => m
  | depth + 1, m => m.fillHoles fun h => (value h).map (resolveHoles value depth)

/-- The hole occurs. -/
def containsHole (h : Id) (m : Term) : Bool :=
  if !m.hasHole then false
  else
    match m with
    | .hole h' _ => h' == h
    | .app f a => f.containsHole h || a.containsHole h
    | .lam _ t b => t.containsHole h || b.containsHole h
    | .pi _ _ t b => t.containsHole h || b.containsHole h
    | _ => false

/-- All holes from the left, as often as they occur, and whether each is deferred. -/
def holeOccurrences (m : Term) : List (Id × Bool) :=
  if !m.hasHole then []
  else
    match m with
    | .hole h deferred => [(h, deferred)]
    | .app f a => f.holeOccurrences ++ a.holeOccurrences
    | .lam _ t b | .pi _ _ t b => t.holeOccurrences ++ b.holeOccurrences
    | _ => []

/-- The holes from the left, each at its first occurrence, and whether it is deferred there. -/
def holes (m : Term) : List (Id × Bool) :=
  m.holeOccurrences.foldl (fun seen h => if seen.any (·.1 == h.1) then seen else seen ++ [h]) []

/-- A hole applied to pairwise distinct hypotheses. -/
structure Pattern where
  hole : Id
  deferred : Bool
  spine : List Id
deriving DecidableEq

/-- The arguments as hypotheses, if they are pairwise distinct hypotheses that differ from those in
`before`. -/
def distinctFree (before : List Id) : List Term → Option (List Id)
  | [] => some []
  | .free x :: ms =>
    if before.contains x then none else (distinctFree (x :: before) ms).map (x :: ·)
  | _ => none

/-- Reads a term as a hole applied to pairwise distinct hypotheses. -/
def pattern? (m : Term) : Option Pattern :=
  match m.head with
  | .hole h deferred => (distinctFree [] m.args).map fun spine => ⟨h, deferred, spine⟩
  | _ => none

end Term

end ProofAssistant
