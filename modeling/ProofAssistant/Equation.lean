import ProofAssistant.Environment

/-!
# Equations

Equations as terms, with the proofs that the declarations on equality give.
-/

namespace ProofAssistant

/-- An equation between two terms of one type. -/
structure Equation where
  /-- The universe of the type. -/
  level : Level
  type : Term
  lhs : Term
  rhs : Term
deriving DecidableEq

/-- Reads a term as an equation. -/
def Term.equation? (m : Term) : Option Equation :=
  match m.head, m.args with
  | .const c [level], [type, lhs, rhs] => if c = ⟨"Eq"⟩ then some ⟨level, type, lhs, rhs⟩ else none
  | _, _ => none

namespace Equation

/-- A declaration on equality, at the universe of the type. -/
def rule (e : Equation) (c : String) : Term :=
  .const ⟨c⟩ [e.level]

/-- The equation as a term. -/
def term (e : Equation) : Term :=
  (e.rule "Eq").apply [e.type, e.lhs, e.rhs]

/-- The proof by reflexivity, for sides that are convertible. -/
def refl (e : Equation) : Term :=
  (e.rule "Eq.refl").apply [e.type, e.lhs]

/-- The proof of the reversed equation. -/
def symm (e : Equation) (proof : Term) : Term :=
  (e.rule "Eq.symm").apply [e.type, e.lhs, e.rhs, proof]

/-- The proof of `motive rhs` from one of `motive lhs`. -/
def substitute (e : Equation) (motive proof base : Term) : Term :=
  (e.rule "Eq.subst").apply [e.type, e.lhs, e.rhs, motive, proof, base]

/-- The equation with its sides exchanged. -/
def reverse (e : Equation) : Equation :=
  { e with lhs := e.rhs, rhs := e.lhs }

end Equation

end ProofAssistant
