import ProofAssistant.Tactic.Run

/-!
# Elaboration

Expressions to terms, and tactics to proofs. What comes out has no holes left and has been accepted by
the kernel: `Elaborator.finish` is the only way to an `Elaborated` term.
-/

namespace ProofAssistant

/-- A term that the kernel has accepted at the type, and the goals that were left out of it. -/
structure Elaborated where
  term : Term
  type : Term
  obligations : List Goal
deriving Inhabited

namespace Elaborator

mutual

/-- A term for an expression, and its type. The fuel bounds the nesting of expressions and tactics. -/
def visit (E : Elaborator) :
    (fuel : Nat) → Context → Expr → (expected : Option Term) → ElabM (Term × Term)
  | 0, _, _, _ => ElabM.exhausted
  | fuel + 1, Γ, e, expected => E.visitForm ⟨E.visit fuel, E.run fuel⟩ Γ e expected

/-- The goals that a tactic leaves. The fuel bounds the nesting of expressions and tactics. -/
def run (E : Elaborator) : (fuel : Nat) → Tactic → List Goal → ElabM (List Goal)
  | 0, _, _ => ElabM.exhausted
  | fuel + 1, t, goals => E.runForm ⟨E.visit fuel, E.run fuel⟩ t goals

end

/-- The steps with the elaborator's fuel. -/
def recursion (E : Elaborator) : Recursion :=
  ⟨E.visit E.fuel, E.run E.fuel⟩

/-! ## Finished terms -/

/-- The name of the declaration that stands for proofs that are left out. -/
def deferredName : Name := ⟨"sorryAx"⟩

/-- Puts the declaration for proofs that are left out in the place of deferred holes. -/
def fillDeferred (E : Elaborator) (m : Term) (obligations : List Goal) : ElabM Term := do
  if (E.env.get? deferredName).isNone then ElabM.fail {} (.missingDeclaration deferredName)
  let values ← obligations.mapM fun g => do
    let l := (← get).instantiateLevel (← E.sortOf g.context g.target)
    return (g.id, ((Term.const deferredName [l]).app g.target).abs g.context.locals)
  return m.resolveHoles (values.lookup ·) values.length

/-- A number that is neither handed out yet nor that of a hypothesis in the context or in the terms,
which may come from outside. -/
def unusedNumber (Γ : Context) (m type : Term) : FreshM Nat :=
  return Nat.max (← FreshM.next) (Nat.max Γ.bound (Nat.max m.freeBound type.freeBound))

/-- The finished term: all instances are found, no hole or universe metavariable is left, proofs that
were left out are allowed, and the kernel accepts it. There is no answer if solutions refer to each other
in a circle. -/
def finish (E : Elaborator) (Γ : Context) (m type : Term) : ElabM Elaborated := do
  E.resolvePending true
  let μ ← get
  let s ← getThe Supply
  let m := μ.instantiate m
  let type := μ.instantiate type
  if let some g := (μ.openGoals s m ++ μ.openGoals s type).head? then
    ElabM.fail g.context (.unresolvedHole g)
  if (m.holes ++ type.holes).any (!·.2) then ElabM.exhausted
  let obligations := μ.deferredGoals s m
  if !obligations.isEmpty && !E.options.allowDeferred then
    ElabM.fail Γ (.incompleteProof obligations)
  let m ← if obligations.isEmpty then pure m else E.fillDeferred m obligations
  if m.hasLevelMVar || type.hasLevelMVar then ElabM.fail Γ (.unresolvedLevel m)
  FreshM.ofTyping (E.env.check E.levelParams E.fuel (← unusedNumber Γ m type) Γ m type)
  return ⟨m, type, obligations⟩

/-- A checked term for an expression, of the expected type if there is one. -/
def elaborate (E : Elaborator) (Γ : Context) (e : Expr) (expected : Option Term) :
    FreshM Elaborated :=
  ElabM.fromStart do
    match expected with
    | some type =>
      let m ← E.visitAs E.recursion Γ e type
      E.finish Γ m type
    | none =>
      let (m, type) ← E.recursion.visit Γ e none
      E.finish Γ m type

/-- A checked type for an expression; its type is a sort. -/
def elaborateType (E : Elaborator) (Γ : Context) (e : Expr) : FreshM Elaborated :=
  ElabM.fromStart do
    let (m, l) ← E.visitType E.recursion Γ e
    E.finish Γ m (.sort l)

/-- A checked proof by a chain of relations. -/
def elaborateChain (E : Elaborator) (Γ : Context) (start : Expr) (steps : List ChainStep) :
    FreshM Elaborated :=
  ElabM.fromStart do
    let (m, type) ← E.visitChain E.recursion Γ start steps
    E.finish Γ m type

/-! ## Proofs -/

/-- A new proof of the target. -/
def startProof (Γ : Context) (target : Term) : FreshM ProofState :=
  return .start (← FreshM.declare Γ target) {}

/-- The proof after a tactic. -/
def runTactic (E : Elaborator) (t : Tactic) (s : ProofState) : FreshM ProofState := do
  let (goals, μ) ← (E.recursion.run t s.goals).run s.metas
  return { s with goals, metas := μ }

/-- The checked proof, once no goal is left. -/
def qed (E : Elaborator) (s : ProofState) : FreshM Elaborated := do
  if !s.isDone then FreshM.fail s.root.context (.unsolvedGoals s.goals)
  (E.finish s.root.context s.proof s.root.target).run' s.metas

/-- A checked proof of the target by a tactic. -/
def prove (E : Elaborator) (Γ : Context) (target : Term) (t : Tactic) : FreshM Elaborated := do
  E.qed (← E.runTactic t (← startProof Γ target))

end Elaborator

end ProofAssistant
