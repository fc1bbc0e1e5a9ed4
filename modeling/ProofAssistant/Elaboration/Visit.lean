import ProofAssistant.Elaboration.Instance

/-!
# Elaborating expressions

One step of elaboration for each form of expression. An expected type is a hint: it guides what is
left out, and the caller makes the types convertible.

The steps call each other, and tactics, on parts of an expression through `Recursion`, and so each of
them can be read by itself.
-/

namespace ProofAssistant

/-- The functions that a step calls on parts of an expression or a tactic. -/
structure Recursion where
  /-- A term for an expression, and its type. -/
  visit : Context → Expr → (expected : Option Term) → ElabM (Term × Term)
  /-- The goals that a tactic leaves of some goals. -/
  run : Tactic → List Goal → ElabM (List Goal)

namespace Elaborator

/-- A term of the expected type for an expression. -/
def visitAs (E : Elaborator) (R : Recursion) (Γ : Context) (e : Expr) (expected : Term) :
    ElabM Term := do
  let (m, type) ← R.visit Γ e (some expected)
  if ← E.unify Γ type expected then return m
  let μ ← get
  ElabM.fail Γ (.typeMismatch (μ.instantiate m) (μ.instantiate expected) (μ.instantiate type))

/-- A type for an expression, and the level of its sort. -/
def visitType (E : Elaborator) (R : Recursion) (Γ : Context) (e : Expr) : ElabM (Term × Level) := do
  let (m, type) ← R.visit Γ e none
  match ← E.whnf type with
  | .sort l => return (m, l)
  | type =>
    let l ← FreshM.newLevel
    if type.pattern?.isSome then
      if ← E.unify Γ type (.sort l) then return (m, l)
    ElabM.fail Γ (.typeExpected m type)

/-- A name as a term: the newest hypothesis of that name, or else the declaration at new levels. -/
def visitName (E : Elaborator) (Γ : Context) (n : Name) : ElabM (Term × Term) := do
  if let some h := Γ.find? n then return (h.term, h.type)
  let some d := E.env.get? n | ElabM.fail Γ (.unknownIdentifier n)
  let levels ← d.levelParams.mapM fun _ => FreshM.newLevel
  let m :=
    match d.kind with
    | .constructor family index => .ctor family index n levels
    | _ => .const n levels
  return (m, d.type.instantiateLevelParams d.levelParams levels)

/-! ## Applications -/

/-- A function on holes for its implicit arguments, with its domain and the body of its codomain.
Implicit arguments are like others if the function is `explicit`. -/
def openDomain (E : Elaborator) (Γ : Context) (explicit : Bool) :
    (fuel : Nat) → (m type : Term) → ElabM (Term × Term × Term)
  | 0, _, _ => ElabM.exhausted
  | fuel + 1, m, type => do
    match ← E.whnf type with
    | .pi _ implicit t b =>
      if implicit && !explicit then
        let a ← E.newArgument Γ t
        E.openDomain Γ explicit fuel (m.app a) (b.instantiate a)
      else return (m, t, b)
    | type => ElabM.fail Γ (.functionExpected (← ElabM.instantiate m) type)

/-- A term on holes for the implicit arguments it takes next. -/
def insertImplicits (E : Elaborator) (Γ : Context) :
    (fuel : Nat) → (m type : Term) → ElabM (Term × Term)
  | 0, _, _ => ElabM.exhausted
  | fuel + 1, m, type => do
    match ← E.whnf type with
    | .pi _ true t b =>
      let a ← E.newArgument Γ t
      E.insertImplicits Γ fuel (m.app a) (b.instantiate a)
    | _ => return (m, type)

/-- A function on arguments. -/
def visitArgs (E : Elaborator) (R : Recursion) (Γ : Context) (explicit : Bool) :
    List Expr → (m type : Term) → ElabM (Term × Term)
  | [], m, type => return (m, type)
  | e :: es, m, type => do
    let (m, t, b) ← E.openDomain Γ explicit E.fuel m type
    let a ← E.visitAs R Γ e t
    E.visitArgs R Γ explicit es (m.app a) (b.instantiate a)

/-- An application. Implicit arguments are inserted after a name that does not ask for all its
arguments. -/
def visitApp (E : Elaborator) (R : Recursion) (Γ : Context) (e : Expr) : ElabM (Term × Term) := do
  match e.head with
  | .ident n =>
    let (m, type) ← E.visitName Γ n
    let (m, type) ← E.visitArgs R Γ false e.args m type
    E.insertImplicits Γ E.fuel m type
  | .explicit n =>
    let (m, type) ← E.visitName Γ n
    E.visitArgs R Γ true e.args m type
  | head =>
    let (m, type) ← R.visit Γ head none
    E.visitArgs R Γ true e.args m type

/-! ## Binders -/

/-- The type of the variable of an abstraction: as given, and then convertible to the domain of the
expected type; or else that domain; or else a hole. -/
def visitBinderType (E : Elaborator) (R : Recursion) (Γ : Context) (given : Option Expr)
    (domain : Option Term) : ElabM Term := do
  match given, domain with
  | some e, some domain =>
    let (t, _) ← E.visitType R Γ e
    if ← E.unify Γ t domain then return t
    let μ ← get
    ElabM.fail Γ (.typeMismatch (μ.instantiate t) (μ.instantiate domain) (μ.instantiate t))
  | some e, none => return (← E.visitType R Γ e).1
  | none, some domain => return domain
  | none, none => ElabM.newTypeHole Γ

/-- An abstraction. If a product is expected, it gives the type of the variable and of the body. -/
def visitLam (E : Elaborator) (R : Recursion) (Γ : Context) (x : Name) (given : Option Expr)
    (body : Expr) (expected : Option Term) : ElabM (Term × Term) := do
  let expected ← expected.mapM E.whnf
  match expected with
  | some (.pi _ implicit domain codomain) =>
    let t ← E.visitBinderType R Γ given (some domain)
    let h ← FreshM.assume x t
    let type := codomain.instantiate h.term
    let m ← E.visitAs R (Γ.push h) body type
    return (m.abs [h], .pi x implicit t (type.close [h.id] 0))
  | _ =>
    let t ← E.visitBinderType R Γ given none
    let h ← FreshM.assume x t
    let (m, type) ← R.visit (Γ.push h) body none
    return (m.abs [h], .pi x false t (type.close [h.id] 0))

/-- A product. -/
def visitPi (E : Elaborator) (R : Recursion) (Γ : Context) (x : Name) (implicit : Bool)
    (type body : Expr) : ElabM (Term × Term) := do
  let (t, l) ← E.visitType R Γ type
  let h ← FreshM.assume x t
  let (b, l') ← E.visitType R (Γ.push h) body
  return (.pi x implicit t (b.close [h.id] 0), .sort (.imax l l'))

/-! ## Chains of relations -/

/-- Fails at a step of a chain. -/
def failChain {α : Type} (Γ : Context) (step : Nat) (e : ChainError) : ElabM α :=
  throw (.chain step Γ e)

/-- Runs a part of a step of a chain, whose failures are those of the step. -/
def inStep {α : Type} (Γ : Context) (step : Nat) (x : ElabM α) : ElabM α :=
  tryCatch x fun e => failChain Γ step (.step e)

/-- The relation that a proposition is about. -/
def relationOf (Γ : Context) (step : Nat) (statement : Term) : ElabM Name :=
  match statement.head with
  | .const c _ => return c
  | _ => failChain Γ step (.notARelation statement)

/-- What a chain has shown so far: the relation, its proof, and the statement proved. -/
structure Link where
  relation : Name
  proof : Term
  statement : Term

/-- A step from `lhs`: its right-hand side, and what it shows. -/
def visitStep (E : Elaborator) (R : Recursion) (Γ : Context) (i : Nat) (lhs : Term) (s : ChainStep) :
    ElabM (Term × Link) := do
  let (rhs, _) ← inStep Γ i (R.visit Γ s.rhs none)
  let (statement, _) ←
    inStep Γ i (E.visitType R Γ (s.relation.apply [.term lhs, .term rhs]))
  let statement ← ElabM.instantiate statement
  let relation ← relationOf Γ i statement
  let proof ← inStep Γ i (E.visitAs R Γ s.proof statement)
  return (rhs, ⟨relation, proof, statement⟩)

/-- What two parts of a chain show together, by the transitivity rule for their relations. -/
def combine (E : Elaborator) (R : Recursion) (Γ : Context) (i : Nat) (a b : Link) : ElabM Link := do
  let some rule := E.env.transRule? a.relation b.relation
    | failChain Γ i (.noRule a.relation b.relation)
  let (proof, statement) ←
    inStep Γ i (R.visit Γ ((Expr.ident rule).apply [.term a.proof, .term b.proof]) none)
  let statement ← ElabM.instantiate statement
  return ⟨← relationOf Γ i statement, proof, statement⟩

/-- What a chain shows after the steps from the `i`-th on, if it has shown `acc` before. -/
def visitSteps (E : Elaborator) (R : Recursion) (Γ : Context) :
    (i : Nat) → (lhs : Term) → (acc : Option Link) → List ChainStep → ElabM (Option Link)
  | _, _, acc, [] => return acc
  | i, lhs, acc, s :: ss => do
    let (rhs, link) ← E.visitStep R Γ i lhs s
    let link ←
      match acc with
      | none => pure link
      | some acc => E.combine R Γ i acc link
    E.visitSteps R Γ (i + 1) rhs (some link) ss

/-- A chain of relations. -/
def visitChain (E : Elaborator) (R : Recursion) (Γ : Context) (start : Expr) (steps : List ChainStep) :
    ElabM (Term × Term) := do
  if steps.isEmpty then failChain Γ 0 .noSteps
  let (lhs, _) ← R.visit Γ start none
  match ← E.visitSteps R Γ 0 lhs none steps with
  | some link => return (link.proof, link.statement)
  | none => failChain Γ 0 .noSteps

/-! ## All forms -/

/-- A proof of the target by a tactic. -/
def visitScript (R : Recursion) (Γ : Context) (t : Tactic) (target : Term) : ElabM (Term × Term) := do
  let g ← FreshM.declare Γ (← ElabM.instantiate target)
  let goals ← R.run t [g]
  if !goals.isEmpty then ElabM.fail Γ (.unsolvedGoals goals)
  return (g.hole, g.target)

/-- A term for an expression, and its type. -/
def visitForm (E : Elaborator) (R : Recursion) (Γ : Context) (e : Expr) (expected : Option Term) :
    ElabM (Term × Term) :=
  match e with
  | .ident _ | .explicit _ | .app .. => E.visitApp R Γ e
  | .lam x t b => E.visitLam R Γ x t b expected
  | .pi x implicit t b => E.visitPi R Γ x implicit t b
  | .sort l => return (.sort l, .sort (.succ l))
  | .hole => do
    let type ← expected.getDM (ElabM.newTypeHole Γ)
    return (← ElabM.newHole Γ type, type)
  | .deferred =>
    match expected with
    | some type => return (← ElabM.newDeferred Γ type, type)
    | none => ElabM.fail Γ (.cannotInferType e)
  | .this =>
    match Γ.locals.getLast? with
    | some h => return (h.term, h.type)
    | none => ElabM.fail Γ .noHypothesis
  | .assumption p => do
    let (prop, _) ← E.visitType R Γ p
    match ← E.findHypothesis Γ prop with
    | some h => return (h.term, prop)
    | none => ElabM.fail Γ (.assumptionNotFound (← ElabM.instantiate prop))
  | .annot e t => do
    let (type, _) ← E.visitType R Γ t
    return (← E.visitAs R Γ e type, type)
  | .term m => return (m, ← E.typeOf Γ m)
  | .script t =>
    match expected with
    | some target => visitScript R Γ t target
    | none => ElabM.fail Γ (.cannotInferType e)
  | .chain start steps => E.visitChain R Γ start steps

end Elaborator

end ProofAssistant
