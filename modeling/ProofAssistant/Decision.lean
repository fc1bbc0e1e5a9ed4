import ProofAssistant.Conversion
import ProofAssistant.Equation
import ProofAssistant.Term.Printer

/-!
# Decision procedures

A decision procedure proposes a proof of a target. Proposals are checked by the kernel before they are
used, so nothing hangs on a procedure being right.
-/

namespace ProofAssistant

/-- A procedure that may propose a proof of a target, within its fuel. `next` is the least number that
no identity has. -/
structure Decider where
  name : String
  decide : (env : Env) → (fuel next : Nat) → Context → (target : Term) → Option (Option Term)

namespace Decider

/-- Proves an equation whose sides are convertible. -/
def reflexivity : Decider where
  name := "reflexivity"
  decide env fuel next _ target :=
    match target.equation? with
    | some e => do
      if ← env.isDefEq fuel next e.lhs e.rhs then return some e.refl else return none
    | none => return none

/-- The bound `lhs + steps` and a proof that `lhs` is at most this. -/
def leProof (lhs : Term) : (steps : Nat) → Term × Term
  | 0 => (lhs, (Term.const ⟨"Nat.le_refl"⟩ []).apply [lhs])
  | steps + 1 =>
    let (bound, proof) := leProof lhs steps
    ((Term.ctor ⟨"Nat"⟩ 1 ⟨"Nat.succ"⟩ []).app bound,
      (Term.const ⟨"Nat.le_step"⟩ []).apply [lhs, bound, proof])

/-- Proves that a numeral is at most another. -/
def natLe : Decider where
  name := "nat_le"
  decide env fuel _ _ target := do
    let target ← env.whnf fuel target
    match target.head, target.args with
    | .const c _, [lhs, rhs] =>
      if c ≠ ⟨"Nat.le"⟩ then return none
      match (← env.whnf fuel lhs).numeral?, (← env.whnf fuel rhs).numeral? with
      | some m, some n => return if m ≤ n then some (leProof lhs (n - m)).2 else none
      | _, _ => return none
    | _, _ => return none

/-- The procedures that are there from the start. -/
def defaults : List Decider :=
  [reflexivity, natLe]

end Decider

end ProofAssistant
