import ProofAssistant.Elaboration.Visit

/-!
# Tactics: the basic steps

A tactic takes the goals of a proof to the goals that it leaves. A basic step solves the first goal,
possibly in terms of new goals, which then take its place; a goal that is solved on the way is dropped.
-/

namespace ProofAssistant

namespace Elaborator

/-- Fails on a goal. -/
def failTactic {α : Type} (g : Goal) (cause : TacticError.Cause) : ElabM α :=
  throw (.tactic ⟨cause, some g⟩)

/-- A goal with its target and hypotheses as far as they are known. -/
def instantiateGoal (g : Goal) : ElabM Goal := do
  let μ ← get
  return { g with
    target := μ.instantiate g.target
    context := ⟨g.context.locals.map fun h => { h with type := μ.instantiate h.type }⟩ }

/-- The first goal, as far as it is known, and the others. -/
def mainGoal : List Goal → ElabM (Goal × List Goal)
  | [] => throw (.tactic ⟨.noGoals, none⟩)
  | g :: gs => return (← instantiateGoal g, gs)

/-- The goals that have not been solved. -/
def prune (goals : List Goal) : ElabM (List Goal) := do
  let μ ← get
  return goals.filter (!μ.isAssigned ·.id)

/-- Solves a goal by a term in its context, after the instances that are known. -/
def closeWith (E : Elaborator) (g : Goal) (m : Term) : ElabM Unit := do
  E.resolvePending false
  modify fun μ => μ.assignGoal g (μ.instantiate m)

/-! ## Introduction -/

/-- Moves the first binder of the target into the context, under the given name or its own. -/
def introOne (E : Elaborator) (name : Option Name) (goals : List Goal) : ElabM (List Goal) := do
  let (g, rest) ← mainGoal goals
  match ← E.whnf g.target with
  | .pi x _ t b =>
    let name := name.getD (if x.isAnonymous then ⟨"h"⟩ else x)
    let h ← FreshM.assume name t
    let g' ← FreshM.declare (g.context.push h) (b.instantiate h.term)
    modify (·.assignGoal g (g'.hole.abs [h]))
    prune (g' :: rest)
  | _ => failTactic g .nothingToIntroduce

/-- Moves a binder into the context for each name, or one if there are no names. -/
def intro (E : Elaborator) : List Name → List Goal → ElabM (List Goal)
  | [], goals => E.introOne none goals
  | names, goals => names.foldlM (fun goals n => E.introOne (some n) goals) goals

/-! ## Terms -/

/-- Solves the goal by an expression; holes that are left become goals. -/
def exact (E : Elaborator) (R : Recursion) (e : Expr) (goals : List Goal) : ElabM (List Goal) := do
  let (g, rest) ← mainGoal goals
  let (m, type) ← R.visit g.context e (some g.target)
  if !(← E.unify g.context type g.target) then
    failTactic g (.typeMismatch g.target (← ElabM.instantiate type))
  E.closeWith g m
  prune ((← newGoals g.hole) ++ rest)

/-- A term on as few new arguments as make its type convertible to the target. -/
def applyArguments (E : Elaborator) (g : Goal) : (fuel : Nat) → (m type : Term) → ElabM Term
  | 0, _, _ => ElabM.exhausted
  | fuel + 1, m, type => do
    if ← ElabM.orRestore (E.unify g.context type g.target) then return m
    match ← E.whnf type with
    | .pi _ _ t b =>
      let a ← E.newArgument g.context t
      E.applyArguments g fuel (m.app a) (b.instantiate a)
    | _ => failTactic g (.typeMismatch g.target (← ElabM.instantiate type))

/-- Solves the goal by an expression on new arguments; those that are not found become goals. -/
def apply (E : Elaborator) (R : Recursion) (e : Expr) (goals : List Goal) : ElabM (List Goal) := do
  let (g, rest) ← mainGoal goals
  let (m, type) ← R.visit g.context e none
  let m ← E.applyArguments g E.fuel m type
  E.closeWith g m
  prune ((← newGoals g.hole) ++ rest)

/-- Solves the goal by a hypothesis. Without goals there is nothing to do. -/
def assumption (E : Elaborator) (goals : List Goal) : ElabM (List Goal) := do
  if goals.isEmpty then return goals
  let (g, rest) ← mainGoal goals
  match ← E.findHypothesis g.context g.target with
  | some h =>
    modify (·.assignGoal g h.term)
    prune rest
  | none => failTactic g .noAssumptionFound

/-- Leaves the goal unproved. -/
def defer (goals : List Goal) : ElabM (List Goal) := do
  let (g, rest) ← mainGoal goals
  let m ← ElabM.newDeferred g.context g.target
  modify (·.assignGoal g m)
  prune rest

/-! ## Equations and decisions -/

/-- Solves an equation whose sides can be made convertible. -/
def rfl (E : Elaborator) (goals : List Goal) : ElabM (List Goal) := do
  let (g, rest) ← mainGoal goals
  let some e := (← E.whnf g.target).equation? | failTactic g (.wrongGoalShape .equation)
  if !(← E.unify g.context e.lhs e.rhs) then failTactic g (.notDefEq e.lhs e.rhs)
  modify fun μ => μ.assignGoal g (μ.instantiate e.refl)
  prune rest

/-- The first proof that a decision procedure proposes and the kernel accepts. -/
def decideBy (E : Elaborator) (g : Goal) : List Decider → FreshM (Option Term)
  | [] => return none
  | d :: ds => do
    let next ← FreshM.next
    match ← FreshM.ofOption (d.decide E.env E.fuel next g.context g.target) with
    | none => E.decideBy g ds
    | some proof =>
      let checked := E.env.check E.levelParams E.fuel next g.context proof g.target
      match ← FreshM.ofOption checked.run with
      | .ok () => return some proof
      | .error _ => E.decideBy g ds

/-- Solves a goal without holes by a decision procedure. -/
def decide (E : Elaborator) (goals : List Goal) : ElabM (List Goal) := do
  let (g, rest) ← mainGoal goals
  let proof ← if g.target.hasHole then pure none else E.decideBy g E.deciders
  match proof with
  | some proof =>
    modify (·.assignGoal g proof)
    prune rest
  | none => failTactic g .decisionFailed

end Elaborator

end ProofAssistant
