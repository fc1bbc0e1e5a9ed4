import ProofAssistant.Name

/-!
# Identities

Hypotheses, holes and universe metavariables are told apart by a number, handed out in ascending order
and never twice. An identity made for a hypothesis remembers the name it was made with, for printing
where the hypothesis itself is out of scope.
-/

namespace ProofAssistant

/-- The identity of a hypothesis, a hole or a universe metavariable. -/
structure Id where
  number : Nat
  hint : Option Name := none
deriving DecidableEq, Inhabited

/-- Identities are ordered by age. -/
instance : Ord Id := ⟨fun a b => compare a.number b.number⟩

end ProofAssistant
