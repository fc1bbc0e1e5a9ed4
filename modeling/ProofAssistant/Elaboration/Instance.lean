import ProofAssistant.Elaboration.Monad

/-!
# Instance resolution

An argument of class type that is left out is found among the hypotheses and the registered instances.
Hypotheses come before all instances, instances of higher priority before others; of those that fit,
the best must be the only one of its rank.

Holes of class type wait until their type is known, as other holes are solved in between.
-/

namespace ProofAssistant

namespace Elaborator

/-- A way to inhabit a class type, and the situation that it leads to. -/
structure Candidate where
  priority : UInt32
  name : Name
  term : Term
  situation : Situation

namespace Candidate

/-- The rank of hypotheses. -/
def hypothesisPriority : UInt32 := 4294967295

/-- The candidates that no other one comes before. -/
def best (cs : List Candidate) : List Candidate :=
  cs.filter fun c => cs.all fun d => d.priority ≤ c.priority

end Candidate

/-- The results of the attempts that succeed, with the situations they lead to. All start from the same
situation, which is restored: what is not chosen in the end leaves no trace. -/
def attempts {α β : Type} (attempt : α → ElabM (Option β)) : List α → ElabM (List (β × Situation))
  | [] => return []
  | a :: as => do
    let before ← ElabM.situation
    let result ← attempt a
    let after ← ElabM.situation
    ElabM.goTo before
    let results ← attempts attempt as
    match result with
    | some b => return (b, after) :: results
    | none => return results

/-- An instance on holes for all its arguments: the term, its type, and those holes that are of class
type themselves, with these types. -/
def openInstance (E : Elaborator) (Γ : Context) :
    (fuel : Nat) → (m type : Term) → ElabM (Term × Term × List (Term × Term))
  | 0, _, _ => ElabM.exhausted
  | fuel + 1, m, type => do
    match ← E.whnf type with
    | .pi _ _ t b =>
      let hole ← ElabM.newHole Γ t
      let isClass := E.env.isClassType (← get) t
      let (m, type, subgoals) ← E.openInstance Γ fuel (m.app hole) (b.instantiate hole)
      return (m, type, if isClass then (hole, t) :: subgoals else subgoals)
    | _ => return (m, type, [])

/-- Solves holes of class type in order, by `resolve`. -/
def solveSubgoals (E : Elaborator) (resolve : Context → Term → ElabM Term) (Γ : Context) :
    List (Term × Term) → ElabM Bool
  | [] => return true
  | (hole, type) :: rest => do
    let type ← ElabM.instantiate type
    let found ← tryCatch (some <$> resolve Γ type) fun _ => return none
    match found with
    | some m => if ← E.unify Γ hole m then E.solveSubgoals resolve Γ rest else return false
    | none => return false

/-- A registered instance as a term of the class type, with its own arguments of class type found by
`resolve`. -/
def applyInstance (E : Elaborator) (resolve : Context → Term → ElabM Term) (Γ : Context) (type : Term)
    (i : Instance) : ElabM (Option Term) := do
  let some d := E.env.get? i.name | return none
  let levels ← d.levelParams.mapM fun _ => FreshM.newLevel
  let (m, found, subgoals) ←
    E.openInstance Γ E.fuel (.const i.name levels) (d.type.instantiateLevelParams d.levelParams levels)
  if !(← E.unify Γ found type) then return none
  if !(← E.solveSubgoals resolve Γ subgoals) then return none
  return some m

/-- A hypothesis as a term of the class type. -/
def applyHypothesis (E : Elaborator) (Γ : Context) (c : Name) (type : Term) (h : Local) :
    ElabM (Option Term) := do
  let found ← ElabM.instantiate h.type
  match found.head with
  | .const c' _ =>
    if c' ≠ c then return none
    if ← E.unify Γ found type then return some h.term else return none
  | _ => return none

/-- The only best term of a class type, in which instances depend on instances less than `depth`
deep. -/
def resolve (E : Elaborator) : (depth : Nat) → Context → Term → ElabM Term
  | 0, Γ, type => ElabM.fail Γ (.instanceNotFound type)
  | depth + 1, Γ, type => do
    let .const c _ := type.head | ElabM.fail Γ (.instanceNotFound type)
    let hypotheses ← attempts
      (fun h => return (← E.applyHypothesis Γ c type h).map (h, ·)) Γ.locals.reverse
    let instances ← attempts
      (fun i => return (← E.applyInstance (E.resolve depth) Γ type i).map (i, ·))
      (E.env.instancesOf c)
    let candidates : List Candidate :=
      hypotheses.map (fun ((h, m), X) => ⟨Candidate.hypothesisPriority, h.name, m, X⟩) ++
        instances.map fun ((i, m), X) => ⟨i.priority, i.name, m, X⟩
    match Candidate.best candidates with
    | [] => ElabM.fail Γ (.instanceNotFound type)
    | [c] =>
      ElabM.goTo c.situation
      ElabM.instantiate c.term
    | cs => ElabM.fail Γ (.ambiguousInstance type (cs.map Candidate.name))

/-- Solves a goal of class type by an instance. -/
def resolveGoal (E : Elaborator) (g : Goal) : ElabM Unit := do
  let type ← ElabM.instantiate g.target
  let m ← E.resolve (E.options.maxInstanceDepth + 1) g.context type
  modify (·.assignGoal g m)

/-- Solves those of the goals whose type is known, and gives whether there were any, and the others. -/
def resolveKnown (E : Elaborator) : List Goal → ElabM (Bool × List Goal)
  | [] => return (false, [])
  | g :: gs => do
    if (← get).isAssigned g.id then E.resolveKnown gs
    else if (← ElabM.instantiate g.target).hasHole then
      let (progress, left) ← E.resolveKnown gs
      return (progress, g :: left)
    else
      E.resolveGoal g
      return (true, (← E.resolveKnown gs).2)

/-- Solves the goals that wait for an instance as far as their types are known. What one round solves
may make another type known; each round but the last solves a goal, so no more rounds are needed than
there are goals. -/
def resolveRounds (E : Elaborator) : (rounds : Nat) → ElabM Unit
  | 0 => return ()
  | rounds + 1 => do
    let (progress, left) ← E.resolveKnown (← get).pending
    modify fun μ => { μ with pending := left }
    if progress && !left.isEmpty then E.resolveRounds rounds

/-- Solves the goals that wait for an instance. Those whose types are not known are left, or solved as
they are if `strict`. -/
def resolvePending (E : Elaborator) (strict : Bool) : ElabM Unit := do
  E.resolveRounds (← get).pending.length
  if strict then
    for g in (← get).pending do
      if !(← get).isAssigned g.id then E.resolveGoal g
    modify fun μ => { μ with pending := [] }

/-- The goals of the unsolved holes of a term, but for those that wait for an instance. -/
def newGoals (m : Term) : ElabM (List Goal) := do
  let μ ← get
  let waiting := μ.pending.map Goal.id
  return (μ.openGoals (← getThe Supply) m).filter (!waiting.contains ·.id)

end Elaborator

end ProofAssistant
