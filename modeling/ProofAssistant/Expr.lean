import ProofAssistant.Term

/-!
# Surface expressions

What a user writes: terms with parts left out, in which tactic scripts and chains of relations may
stand for terms. Names are resolved when an expression is elaborated.
-/

namespace ProofAssistant

mutual

/-- A term as it is written. -/
inductive Expr where
  /-- A hypothesis or a declaration; its implicit arguments are left out. -/
  | ident (name : Name)
  /-- A hypothesis or a declaration with all its arguments given. -/
  | explicit (name : Name)
  | app (fn arg : Expr)
  | lam (binder : Name) (type : Option Expr) (body : Expr)
  | pi (binder : Name) (implicit : Bool) (type body : Expr)
  | sort (level : Level)
  /-- To be found by unification. -/
  | hole
  /-- A proof that is left out and reported. -/
  | deferred
  /-- The newest hypothesis. -/
  | this
  /-- A hypothesis of the given type. -/
  | assumption (type : Expr)
  | annot (e type : Expr)
  /-- A term that has been elaborated. -/
  | term (m : Term)
  /-- A proof by a tactic script. -/
  | script (t : Tactic)
  /-- A proof by a chain of relations. -/
  | chain (start : Expr) (steps : List ChainStep)

/-- A step of a chain: the relation of the last right-hand side to a new one, with its proof. -/
inductive ChainStep where
  | mk (relation rhs proof : Expr)

/-- A step of a proof, which works on the first goal unless it says otherwise. -/
inductive Tactic where
  /-- Moves binders of the target into the context, one for each name and at least one. -/
  | intro (names : List Name)
  | cases (hypothesis : Name) (names : List Name)
  | induction (target : Name) (names : List Name)
  /-- Replaces one side of an equation by the other, at all occurrences or only the given one. -/
  | rw (equation : Expr) (reverse : Bool) (occurrence : Option Nat)
  /-- Applies the only constructor of the target. -/
  | split
  | assumption
  | exact (e : Expr)
  | apply (e : Expr)
  | simp (lemmas : List Expr)
  | rfl
  | decide
  /-- Leaves the goal unproved and reports it. -/
  | deferred
  | seq (ts : List Tactic)
  | loop (t : Tactic)
  | focus (t : Tactic)
  /-- Runs on every goal by itself. -/
  | all (t : Tactic)
  | orElse (first second : Tactic)

end

instance : Inhabited Expr := ⟨.hole⟩
instance : Inhabited Tactic := ⟨.split⟩

namespace ChainStep

/-- The relation of the step. -/
def relation : ChainStep → Expr
  | .mk r _ _ => r

/-- The new right-hand side. -/
def rhs : ChainStep → Expr
  | .mk _ e _ => e

/-- The proof of the step. -/
def proof : ChainStep → Expr
  | .mk _ _ p => p

end ChainStep

namespace Expr

/-- The function at the head of an application. -/
def head : Expr → Expr
  | .app f _ => f.head
  | e => e

/-- The arguments of an application, in front of `rest`. -/
def argsThen : Expr → List Expr → List Expr
  | .app f a, rest => f.argsThen (a :: rest)
  | _, rest => rest

/-- The arguments of an application, in order. -/
def args (e : Expr) : List Expr :=
  e.argsThen []

/-- An expression applied to some arguments. -/
def apply (e : Expr) (args : List Expr) : Expr :=
  args.foldl .app e

/-- A function type whose result does not depend on its argument. -/
def arrow (domain codomain : Expr) : Expr :=
  .pi .anonymous false domain codomain

/-- An equation. -/
def eq (a b : Expr) : Expr :=
  (Expr.ident ⟨"Eq"⟩).apply [a, b]

end Expr

end ProofAssistant
