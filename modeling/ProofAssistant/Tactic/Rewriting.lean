import ProofAssistant.Tactic.Basic

/-!
# Rewriting

An equation acts on a proposition: occurrences of its left-hand side become the right-hand side.
Simplification does so with a list of equations for as long as one of them applies.
-/

namespace ProofAssistant

namespace Elaborator

/-- A term on new arguments for all that its type takes. -/
def saturate (E : Elaborator) (Γ : Context) : (fuel : Nat) → (m type : Term) → ElabM (Term × Term)
  | 0, _, _ => ElabM.exhausted
  | fuel + 1, m, type => do
    match ← E.whnf type with
    | .pi _ _ t b =>
      let a ← E.newArgument Γ t
      E.saturate Γ fuel (m.app a) (b.instantiate a)
    | _ => return (m, type)

/-- The term may be an instance of the pattern, by their heads and numbers of arguments. -/
def sameHead (m pattern : Term) : Bool :=
  m.args.length == pattern.args.length &&
    match m.head, pattern.head with
    | .const c _, .const c' _ => c == c'
    | .ctor t i _ _, .ctor t' i' _ _ => t == t' && i == i'
    | .free x, .free y => x == y
    | _, .hole .. => true
    | _, _ => false

/-- Solves the holes of a pattern so that it is the first of the terms that it fits. -/
def matchFirst (E : Elaborator) (Γ : Context) (pattern : Term) : List Term → ElabM Unit
  | [] => return ()
  | m :: ms => do
    if sameHead m pattern then
      if ← ElabM.orRestore (E.unify Γ pattern m) then return ()
    E.matchFirst Γ pattern ms

/-- Replaces one side of an equation by the other in the first goal. The holes of the equation are
settled at its first match in the target; those that are left become goals after the changed one. -/
def rw (E : Elaborator) (R : Recursion) (e : Expr) (reverse : Bool) (occurrence : Option Nat)
    (goals : List Goal) : ElabM (List Goal) := do
  let (g, rest) ← mainGoal goals
  let (h, type) ← R.visit g.context e none
  let (h, type) ← E.saturate g.context E.fuel h type
  let type ← ElabM.instantiate type
  let some eqn := type.equation? | failTactic g (.notAnEquation type)
  let level ← E.sortOf g.context g.target
  if !((← get).instantiateLevel level).isZero then failTactic g (.wrongGoalShape .proposition)
  let source := if reverse then eqn.rhs else eqn.lhs
  let replacement := if reverse then eqn.lhs else eqn.rhs
  if source.hasHole then E.matchFirst g.context source g.target.closedSubterms
  let μ ← get
  let source := μ.instantiate source
  let some body := g.target.abstractOccurrences source occurrence | failTactic g (.noMatch source)
  let g' ← FreshM.declare g.context (body.instantiate (μ.instantiate replacement))
  let eqn := { eqn with level := μ.instantiateLevel eqn.level, type := μ.instantiate eqn.type }
  let motive : Term := .lam ⟨"x"⟩ eqn.type body
  let proof :=
    if reverse then eqn.substitute motive h g'.hole
    else eqn.reverse.substitute motive (eqn.symm h) g'.hole
  E.closeWith g proof
  prune (g' :: ((← newGoals h) ++ rest))

/-! ## Simplification -/

/-- A step of rewriting with the first of the equations that applies, changes the target and leaves no
further goals. -/
def simpStep (E : Elaborator) (R : Recursion) (goals : List Goal) (target : Term) :
    List Expr → ElabM (Option (List Goal))
  | [] => return none
  | e :: es => do
    let before ← get
    match ← ElabM.recover (E.rw R e false none goals) with
    | none => E.simpStep R goals target es
    | some goals' =>
      if goals'.length = goals.length then
        let (g', _) ← mainGoal goals'
        if !g'.target.alphaEq target then return some goals'
      set before
      E.simpStep R goals target es

/-- Takes steps while an equation applies and the bound allows it; with the number of steps taken. -/
def simpSteps (E : Elaborator) (R : Recursion) (es : List Expr) :
    (fuel steps : Nat) → List Goal → ElabM (List Goal × Nat)
  | 0, _, _ => ElabM.exhausted
  | fuel + 1, steps, goals => do
    if E.options.simpMaxSteps.any (· ≤ steps) then return (goals, steps)
    let (g, _) ← mainGoal goals
    match ← E.simpStep R goals g.target es with
    | some goals => E.simpSteps R es fuel (steps + 1) goals
    | none => return (goals, steps)

/-- Takes steps with the equations as often as possible, and then solves the goal if it is an equation
with convertible sides. It fails if it changes nothing. Without goals there is nothing to do. -/
def simp (E : Elaborator) (R : Recursion) (es : List Expr) (goals : List Goal) :
    ElabM (List Goal) := do
  if goals.isEmpty then return goals
  let (goals, steps) ← E.simpSteps R es E.fuel 0 goals
  match ← ElabM.recover (E.rfl goals) with
  | some goals => return goals
  | none =>
    if steps = 0 then failTactic (← mainGoal goals).1 .noProgress
    return goals

end Elaborator

end ProofAssistant
