import ProofAssistant.Tactic.Elimination
import ProofAssistant.Tactic.Rewriting

/-!
# Running tactics

One step of a proof for each form of tactic. Tactics that are made of others run these through
`Recursion`. Only a tactic that does not apply is recovered from: an expression in it that cannot be
elaborated ends the proof.
-/

namespace ProofAssistant

namespace Elaborator

/-- Runs a tactic on every goal by itself; goals that are solved on the way are passed over. -/
def runAll (R : Recursion) (t : Tactic) : List Goal → ElabM (List Goal)
  | [] => return []
  | g :: gs => do
    if (← get).isAssigned g.id then runAll R t gs
    else
      let new ← R.run t [g]
      return new ++ (← runAll R t gs)

/-- The goals that a tactic leaves. -/
def runForm (E : Elaborator) (R : Recursion) (t : Tactic) (goals : List Goal) : ElabM (List Goal) :=
  match t with
  | .intro names => E.intro names goals
  | .cases h names => E.eliminate false h names goals
  | .induction x names => E.eliminate true x names goals
  | .rw e reverse occurrence => E.rw R e reverse occurrence goals
  | .split => E.split goals
  | .assumption => E.assumption goals
  | .exact e => E.exact R e goals
  | .apply e => E.apply R e goals
  | .simp es => E.simp R es goals
  | .rfl => E.rfl goals
  | .decide => E.decide goals
  | .deferred => defer goals
  | .seq ts => ts.foldlM (fun goals t => R.run t goals) goals
  | .loop t => do
    match ← ElabM.recover (R.run t goals) with
    | none => return goals
    | some goals' =>
      if goals'.map Goal.id = goals.map Goal.id then return goals' else R.run (.loop t) goals'
  | .focus t => do
    let (g, rest) ← mainGoal goals
    prune ((← R.run t [g]) ++ rest)
  | .all t => do prune (← runAll R t goals)
  | .orElse t u => do
    match ← ElabM.recover (R.run t goals) with
    | some goals' => return goals'
    | none => R.run u goals

end Elaborator

end ProofAssistant
