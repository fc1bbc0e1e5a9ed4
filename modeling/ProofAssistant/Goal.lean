import ProofAssistant.Term.Printer

/-!
# Goals, holes and their solutions

A goal is a hole with its context and its target, the type to be inhabited. The hole occurs in terms
applied to the hypotheses of the context, so a solution is stored closed: as an abstraction over them.

Holes and universe metavariables take their numbers from a `Supply`, which also remembers the goal that
each hole was declared for. What has been solved so far is kept in `Metas`, a plain value: a step that
does not work out is undone by going back to an earlier one.
-/

namespace ProofAssistant

/-- A hole, the hypotheses it may use and the type it is to have. -/
structure Goal where
  id : Id
  context : Context
  target : Term
deriving DecidableEq, Inhabited

namespace Goal

/-- The hole on the hypotheses of its context. -/
def holeAs (g : Goal) (deferred : Bool) : Term :=
  (Term.hole g.id deferred).apply g.context.terms

/-- The open hole on the hypotheses of its context. -/
def hole (g : Goal) : Term :=
  g.holeAs false

/-- The type of the bare hole: the target over the hypotheses. -/
def closedType (g : Goal) : Term :=
  g.target.pis g.context.locals

/-- The hypotheses and the target, one line each. -/
def print (g : Goal) : Text :=
  Text.joinWith "\n" (g.context.lines ++ ["⊢ " ++ g.target.pretty g.context])

/-- The texts of some goals, divided by blank lines. -/
def printAll (goals : List Goal) : Text :=
  Text.joinWith "\n\n" (goals.map Goal.print)

end Goal

/-! ## New identities -/

/-- The identities handed out so far, and the goals that holes were declared for. -/
structure Supply where
  /-- The number of the next identity. -/
  next : Nat := 0
  /-- The goals, the newest first. -/
  goals : List Goal := []
deriving Inhabited

namespace Supply

/-- A new identity. -/
def id (s : Supply) (hint : Option Name) : Id × Supply :=
  (⟨s.next, hint⟩, { s with next := s.next + 1 })

/-- A new hypothesis. -/
def assume (s : Supply) (name : Name) (type : Term) : Local × Supply :=
  (.new s.next name type, { s with next := s.next + 1 })

/-- A new goal. -/
def declare (s : Supply) (Γ : Context) (target : Term) : Goal × Supply :=
  let g : Goal := ⟨⟨s.next, none⟩, Γ, target⟩
  (g, ⟨s.next + 1, g :: s.goals⟩)

/-- The goal that a hole was declared for. -/
def goal? (s : Supply) (h : Id) : Option Goal :=
  s.goals.find? (·.id == h)

end Supply

/-! ## Solutions -/

/-- The solutions of holes and universe metavariables, and the holes left to instance resolution. -/
structure Metas where
  /-- Closed solutions, the newest first. -/
  holes : List (Id × Term) := []
  /-- Solutions of universe metavariables, the newest first. -/
  levels : List (Id × Level) := []
  /-- Holes of class type that wait for an instance, the oldest first. -/
  pending : List Goal := []
deriving Inhabited

namespace Metas

/-- The hole has a solution. -/
def isAssigned (μ : Metas) (h : Id) : Bool :=
  (μ.holes.lookup h).isSome

/-- Solves a hole by a closed term. -/
def assign (μ : Metas) (h : Id) (value : Term) : Metas :=
  { μ with holes := (h, value) :: μ.holes }

@[simp] theorem isAssigned_assign (μ : Metas) (h h' : Id) (value : Term) :
    (μ.assign h value).isAssigned h' = (h' == h || μ.isAssigned h') := by
  simp only [isAssigned, assign, List.lookup_cons]
  cases h' == h <;> rfl

/-- Solves a goal by a term in its context. -/
def assignGoal (μ : Metas) (g : Goal) (m : Term) : Metas :=
  μ.assign g.id (m.abs g.context.locals)

/-- Solves a universe metavariable. -/
def assignLevel (μ : Metas) (u : Id) (l : Level) : Metas :=
  { μ with levels := (u, l) :: μ.levels }

/-- The universe metavariable has a solution. -/
def isLevelAssigned (μ : Metas) (u : Id) : Bool :=
  (μ.levels.lookup u).isSome

/-- Puts solutions for universe metavariables, and solutions for those in the solutions, through at
most `depth` many of them. -/
def instantiateLevelTo (μ : Metas) : (depth : Nat) → Level → Level
  | 0, l => l
  | depth + 1, l =>
    l.subst .param fun u =>
      match μ.levels.lookup u with
      | some l' => μ.instantiateLevelTo depth l'
      | none => .mvar u

/-- Puts solutions for universe metavariables. Solutions that do not refer to each other in a circle
nest no deeper than there are solutions. -/
def instantiateLevel (μ : Metas) (l : Level) : Level :=
  if l.hasMVar then μ.instantiateLevelTo μ.levels.length l else l

/-- Puts solutions for holes and universe metavariables. -/
def instantiate (μ : Metas) (m : Term) : Term :=
  let m := m.resolveHoles (μ.holes.lookup ·) μ.holes.length
  if μ.levels.isEmpty || !m.hasLevelMVar then m else m.mapLevels μ.instantiateLevel

/-- A goal whose hole occurs in the term, with its target as far as it is known. -/
def goalOf? (μ : Metas) (s : Supply) (h : Id) : Option Goal :=
  (s.goal? h).map fun g => { g with target := μ.instantiate g.target }

/-- The goals of the unsolved holes of a term that are not deferred, from the left. -/
def openGoals (μ : Metas) (s : Supply) (m : Term) : List Goal :=
  (μ.instantiate m).holes.filterMap fun (h, deferred) =>
    if !deferred && !μ.isAssigned h then μ.goalOf? s h else none

/-- The goals of the deferred holes of a term, from the left. -/
def deferredGoals (μ : Metas) (s : Supply) (m : Term) : List Goal :=
  (μ.instantiate m).holes.filterMap fun (h, deferred) =>
    if deferred then μ.goalOf? s h else none

end Metas

/-! ## Proofs in progress -/

/-- The goals left to prove, what has been solved, and the goal that was set. -/
structure ProofState where
  goals : List Goal
  metas : Metas
  root : Goal
deriving Inhabited

namespace ProofState

/-- The start of a proof. -/
def start (root : Goal) (μ : Metas) : ProofState :=
  ⟨[root], μ, root⟩

/-- No goal is left. -/
def isDone (s : ProofState) : Bool :=
  s.goals.isEmpty

/-- The proof as far as it is known; goals that are left are holes in it. -/
def proof (s : ProofState) : Term :=
  s.metas.instantiate s.root.hole

/-- The goals, divided by blank lines. -/
def print (s : ProofState) : Text :=
  if s.goals.isEmpty then "no goals" else Goal.printAll s.goals

end ProofState

end ProofAssistant
