import ProofAssistant.Clause.Compile
import ProofAssistant.Command
import ProofAssistant.Environment.Inductive

/-!
# Sessions

A session checks commands one by one against a growing environment. A command that fails leaves what
was added before it, so that a session can go on after a failure.
-/

namespace ProofAssistant

/-- An environment that commands extend. -/
structure Session where
  env : Env := {}
  options : Options := {}
  supply : Supply := {}
  /-- What has been reported, the newest last. -/
  log : List Notice := []
deriving Inhabited

/-- The fuel of sessions. Nothing that can be stored takes as many steps. -/
def Session.fuel : Nat := 1000000000

/-- A computation in a session. What it does before it fails stays done. -/
abbrev SessionM (ε : Type) := ExceptT ε (StateT Session Option)

namespace SessionM

/-- Runs a computation that hands out new identities. -/
def ofFresh {α : Type} (x : FreshM α) : SessionM Failure α := do
  let s ← getThe Session
  match ← (x.run s.supply).run with
  | .ok (a, supply) =>
    modifyThe Session ({ · with supply })
    return a
  | .error e => throw e

/-- Replaces the environment by an extension of it. -/
def extend (extension : (env : Env) → (fuel next : Nat) → Fueled TypeError Env) :
    SessionM Failure Unit := do
  let s ← getThe Session
  let env ← ofFresh (FreshM.ofTyping (extension s.env Session.fuel s.supply.next))
  modifyThe Session ({ · with env })

/-- Reports. -/
def report (n : Notice) : SessionM Failure Unit :=
  modifyThe Session fun s => { s with log := s.log ++ [n] }

/-- The elaborator of the session, for a declaration with the given universe parameters. -/
def elaborator (levelParams : List Name) : SessionM Failure Elaborator := do
  let s ← getThe Session
  return { env := s.env, options := s.options, levelParams, fuel := Session.fuel }

/-- Elaborates the type of a declaration. -/
def elaborateType (E : Elaborator) (e : Expr) : SessionM Failure Term :=
  return (← ofFresh (E.elaborateType {} e)).term

end SessionM

namespace Session

open SessionM

/-- The declaration of an inductive type with its types elaborated. For those of the constructors the
type itself is taken as given. -/
def elaborateFamily (d : FamilyDecl) : SessionM Failure InductiveSpec := do
  let E ← elaborator d.levelParams
  let type ← elaborateType E (Binder.telescope d.params (.sort d.sort))
  let next := (← getThe Session).supply.next
  let env ← ofFresh (FreshM.ofTyping (E.env.addPostulate E.fuel next d.name d.levelParams type))
  let result := (Expr.explicit d.name).apply (d.params.map fun b => .ident b.name)
  let ctors ← d.ctors.mapM fun c => do
    let e := Binder.implicitTelescope d.params (Binder.telescope c.fields result)
    return (d.name.extend c.name.text, ← elaborateType { E with env } e)
  return ⟨d.name, d.levelParams, d.params.length, type, ctors⟩

/-- Adds a function defined by clauses, and its equations. -/
def define (d : ClauseDef) : SessionM Failure Compiled := do
  let c ← ofFresh (Compiler.compile (← elaborator d.levelParams) d)
  extend (·.addDefinition · · c.name c.levelParams c.type c.value)
  for e in c.equations do
    extend (·.addTheorem · · e.name c.levelParams e.type e.proof)
  return c

/-- Carries out a command that registers no rule twice. -/
def perform : Command → SessionM Failure Unit
  | .postulate n params type => do
    let type ← elaborateType (← elaborator params) type
    extend (·.addPostulate · · n params type)
    report (.postulate n)
  | .definition n params type value => do
    let E ← elaborator params
    let type ← elaborateType E type
    let value ← ofFresh (E.elaborate {} value (some type))
    if !value.obligations.isEmpty then report (.incompleteDefinition n)
    extend (·.addDefinition · · n params type value.term)
    report (.definition n)
  | .proposition n params statement proof => do
    let E ← elaborator params
    let statement ← elaborateType E statement
    let proof ← ofFresh (E.elaborate {} proof (some statement))
    if !proof.obligations.isEmpty then report (.incompleteProof n proof.obligations.length)
    extend (·.addTheorem · · n params statement proof.term)
    report (.proposition n)
  | .family d => do
    let spec ← elaborateFamily d
    extend (·.addInductive · · spec)
    report (.family d.name spec.ctors.length)
  | .clauses d => do
    let c ← define d
    report (.clauses c.name c.equations.length)
  | .classOf n => do
    extend fun env _ _ => env.addClass n
    report (.classOf n)
  | .instanceOf n priority => do
    extend fun env _ _ => env.addInstance n priority
    report (.instanceOf n priority)
  | .transitivity left right rule => do
    extend fun env _ _ => env.addTrans left right rule
    report (.transitivity left right rule)

/-- Carries out a command. -/
def execute (c : Command) : SessionM CommandError Unit := do
  if let .transitivity left right _ := c then
    if ((← getThe Session).env.transRule? left right).isSome then
      throw (.duplicateRule left right)
  (perform c).adapt .failure

/-- Carries out commands in order, up to the first that fails. -/
def executeAll (cs : List Command) : SessionM CommandFailure Unit :=
  cs.forM fun c => (execute c).adapt (⟨c.name, ·⟩)

end Session

end ProofAssistant
