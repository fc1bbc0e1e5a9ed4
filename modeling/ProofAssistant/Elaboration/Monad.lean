import ProofAssistant.Decision
import ProofAssistant.Failure
import ProofAssistant.Unification

/-!
# The elaborator's state

Elaboration solves holes as it goes along. `FreshM` hands out new identities and may fail; `ElabM` also
keeps the solutions found so far. Both give no answer when the fuel is used up.

A failure that is recovered from takes back the identities and solutions of the failed attempt.
-/

namespace ProofAssistant

/-- What may be chosen about elaboration. -/
structure Options where
  /-- Accepts proofs with parts left out, which are reported. -/
  allowDeferred : Bool := false
  /-- How deep instances may depend on other instances. -/
  maxInstanceDepth : Nat := 8
  /-- How many rewriting steps one simplification may take, if there is a bound. -/
  simpMaxSteps : Option Nat := none
deriving DecidableEq, Inhabited

/-- An environment and what else elaboration depends on. -/
structure Elaborator where
  env : Env
  options : Options := {}
  /-- The universe parameters in scope. -/
  levelParams : List Name := []
  /-- The decision procedures, in the order in which they are tried. -/
  deciders : List Decider := Decider.defaults
  /-- The fuel of each reduction, comparison and loop. -/
  fuel : Nat

/-- A computation that hands out new identities. -/
abbrev FreshM := StateT Supply (ExceptT Failure Option)

/-- A computation that hands out new identities and solves holes. -/
abbrev ElabM := StateT Metas FreshM

/-- What is known at a point of an elaboration: the identities handed out, and the solutions found. -/
structure Situation where
  supply : Supply
  metas : Metas

namespace FreshM

/-- A computation that gives no answer. -/
def exhausted {α : Type} : FreshM α :=
  fun _ => ExceptT.mk none

/-- A computation that cannot fail. -/
def ofOption {α : Type} (x : Option α) : FreshM α :=
  fun s => ExceptT.mk (x.map fun a => .ok (a, s))

/-- A computation that may be rejected by the kernel. -/
def ofTyping {α : Type} (x : Fueled TypeError α) : FreshM α :=
  fun s => (x.adapt Failure.type).map fun a => (a, s)

/-- A computation that may fail as elaboration does. -/
def ofElaboration {α : Type} (x : Fueled ElabError α) : FreshM α :=
  fun s => (x.adapt Failure.elaboration).map fun a => (a, s)

/-- Fails for the given cause. -/
def fail {α : Type} (Γ : Context) (cause : ElabError.Cause) : FreshM α :=
  throw (.elaboration ⟨cause, Γ⟩)

/-- The least number that no identity has. -/
def next : FreshM Nat :=
  return (← get).next

/-- A new universe metavariable. -/
def newLevel : FreshM Level :=
  modifyGet fun s => let (u, s) := s.id none; (.mvar u, s)

/-- A new hypothesis. -/
def assume (name : Name) (type : Term) : FreshM Local :=
  modifyGet (·.assume name type)

/-- A new goal. -/
def declare (Γ : Context) (target : Term) : FreshM Goal :=
  modifyGet (·.declare Γ target)

end FreshM

namespace ElabM

/-- A computation that gives no answer. -/
def exhausted {α : Type} : ElabM α :=
  fun _ => FreshM.exhausted

/-- Fails for the given cause. -/
def fail {α : Type} (Γ : Context) (cause : ElabError.Cause) : ElabM α :=
  throw (.elaboration ⟨cause, Γ⟩)

/-- The situation at this point. -/
def situation : ElabM Situation :=
  fun μ s => pure ((⟨s, μ⟩, μ), s)

/-- Goes on from another situation. -/
def goTo (X : Situation) : ElabM Unit :=
  fun _ _ => pure (((), X.metas), X.supply)

/-- Runs a computation with nothing solved. -/
def fromStart {α : Type} (x : ElabM α) : FreshM α :=
  x.run' {}

/-- A term as far as it is known. -/
def instantiate (m : Term) : ElabM Term :=
  return (← get).instantiate m

/-- A new hole. -/
def newHole (Γ : Context) (type : Term) : ElabM Term :=
  return (← FreshM.declare Γ type).hole

/-- A new hole that waits for an instance. -/
def newInstanceHole (Γ : Context) (type : Term) : ElabM Term := do
  let g ← FreshM.declare Γ type
  modify fun μ => { μ with pending := μ.pending ++ [g] }
  return g.hole

/-- A new hole for a proof that is left out. -/
def newDeferred (Γ : Context) (type : Term) : ElabM Term :=
  return (← FreshM.declare Γ type).holeAs true

/-- A new hole for a type of unknown universe. -/
def newTypeHole (Γ : Context) : ElabM Term := do
  newHole Γ (.sort (← FreshM.newLevel))

/-- Runs an attempt and takes solutions back if it fails. -/
def orRestore (attempt : ElabM Bool) : ElabM Bool := do
  let before ← get
  if ← attempt then return true
  set before
  return false

/-- The result of a computation, or nothing if a tactic in it does not apply. -/
def recover {α : Type} (x : ElabM α) : ElabM (Option α) :=
  tryCatch (some <$> x) fun e =>
    match e with
    | .tactic _ => return none
    | e => throw e

end ElabM

namespace Elaborator

/-- The weak head normal form of a term as far as it is known. -/
def whnf (E : Elaborator) (m : Term) : ElabM Term := do
  FreshM.ofOption (E.env.whnfOf (← get) E.fuel m)

/-- Makes two terms convertible. -/
def unify (E : Elaborator) (Γ : Context) (a b : Term) : ElabM Bool := do
  let s ← getThe Supply
  let (solved, μ) ← FreshM.ofOption ((E.env.unify s E.fuel s.next Γ a b).run (← get))
  set μ
  return solved

/-- The type of a term that may have holes. -/
def typeOf (E : Elaborator) (Γ : Context) (m : Term) : ElabM Term := do
  let s ← getThe Supply
  FreshM.ofElaboration (E.env.typeOf s (← get) E.fuel s.next Γ m)

/-- The level of the sort of a type that may have holes. -/
def sortOf (E : Elaborator) (Γ : Context) (m : Term) : ElabM Level := do
  let s ← getThe Supply
  FreshM.ofElaboration (E.env.sortOf s (← get) E.fuel s.next Γ m)

/-- A new hole for an argument that is left out; one of class type waits for an instance. -/
def newArgument (E : Elaborator) (Γ : Context) (type : Term) : ElabM Term := do
  if E.env.isClassType (← get) type then ElabM.newInstanceHole Γ type else ElabM.newHole Γ type

/-- The newest hypothesis whose type can be made convertible to the given one, which is then done. -/
def findHypothesis (E : Elaborator) (Γ : Context) (type : Term) : ElabM (Option Local) :=
  Γ.locals.reverse.findM? fun h => ElabM.orRestore (E.unify Γ h.type type)

end Elaborator

end ProofAssistant
