import ProofAssistant.Context

/-!
# Environments

An environment holds the declarations accepted so far, together with what the elaborator registers on
top of them: classes, instances and transitivity rules. Declarations are listed with the newest first,
and a name means its newest declaration.

The height of a definition is one more than that of every definition its value mentions. Conversion
unfolds the higher of two definitions first, since the lower one may occur in the value of the higher.
-/

namespace ProofAssistant

/-- What a declaration declares. -/
inductive Decl.Kind where
  /-- Assumed without a value. -/
  | postulate
  | definition (value : Term) (height : Nat)
  /-- A proposition with a proof; the proof is never unfolded. -/
  | proven (proof : Term)
  | inductiveType
  /-- The constructor at place `index` of the inductive type `family`. -/
  | constructor (family : Name) (index : Nat)
  /-- The recursor of the inductive type `family`. -/
  | recursor (family : Name)
deriving DecidableEq

/-- A declaration. -/
structure Decl where
  name : Name
  levelParams : List Name
  type : Term
  kind : Decl.Kind
deriving DecidableEq

/-- A constructor of an inductive type. -/
structure Constructor where
  name : Name
  /-- The whole type, parameters included. -/
  type : Term
  numFields : Nat
  /-- For each field, whether it is of the inductive type itself. -/
  recursive : List Bool
deriving DecidableEq, Inhabited

/-- An inductive type. -/
structure InductiveType where
  name : Name
  levelParams : List Name
  numParams : Nat
  /-- The level of the sort the type lives in. -/
  sort : Level
  ctors : List Constructor
  recursor : Name
  /-- The universe parameter of the motive; none if the type eliminates into propositions only. -/
  elimLevel : Option Name
deriving DecidableEq

/-- An instance of a class, preferred over instances of lower priority. -/
structure Instance where
  name : Name
  priority : UInt32
deriving DecidableEq

/-- The accepted declarations and registrations. -/
structure Env where
  /-- The declarations, the newest first. -/
  decls : List Decl := []
  /-- The inductive types, the newest first. -/
  inductives : List InductiveType := []
  classes : List Name := []
  /-- The instances with their classes, in the order they were registered. -/
  instances : List (Name × Instance) := []
  /-- Rules to chain two relations, the newest first. -/
  transRules : List ((Name × Name) × Name) := []
  /-- Counts the additions. -/
  version : Nat := 0
deriving DecidableEq, Inhabited

namespace Env

/-- The number of declarations made. -/
def size (env : Env) : Nat :=
  env.decls.length

/-- The declaration a name means. -/
def get? (env : Env) (c : Name) : Option Decl :=
  env.decls.find? (·.name == c)

/-- The declared names in the order they were declared. -/
def order (env : Env) : List Name :=
  env.decls.reverse.map Decl.name

/-- The declarations in the order they were made, each as its name means it now. -/
def declarations (env : Env) : List Decl :=
  env.order.filterMap env.get?

/-- The inductive type of the given name. -/
def inductive? (env : Env) (t : Name) : Option InductiveType :=
  env.inductives.find? (·.name == t)

/-- The inductive type whose recursor has the given name. -/
def recursorOf? (env : Env) (c : Name) : Option InductiveType :=
  match (env.get? c).map Decl.kind with
  | some (.recursor t) => env.inductive? t
  | _ => none

/-- The name of a class. -/
def isClass (env : Env) (c : Name) : Bool :=
  env.classes.contains c

/-- The instances of a class, in the order they were registered. -/
def instancesOf (env : Env) (cls : Name) : List Instance :=
  (env.instances.filter (·.1 == cls)).map Prod.snd

/-- The rule that chains the relations `left` and `right`. -/
def transRule? (env : Env) (left right : Name) : Option Name :=
  env.transRules.lookup (left, right)

/-- Adds a declaration without checking it. -/
def insert (env : Env) (d : Decl) : Env :=
  { env with decls := d :: env.decls, version := env.version + 1 }

@[simp] theorem get?_insert (env : Env) (d : Decl) (c : Name) :
    (env.insert d).get? c = if d.name == c then some d else env.get? c := by
  simp only [get?, insert, List.find?_cons]
  cases d.name == c <;> rfl

@[simp] theorem order_insert (env : Env) (d : Decl) :
    (env.insert d).order = env.order ++ [d.name] := by
  simp [order, insert]

/-- Records an inductive type without checking it. -/
def insertInductive (env : Env) (t : InductiveType) : Env :=
  { env with inductives := t :: env.inductives }

/-! ## Definitions -/

/-- The height of a definition; zero for a name that does not unfold. -/
def constHeight (env : Env) (c : Name) : Nat :=
  match (env.get? c).map Decl.kind with
  | some (.definition _ height) => height
  | _ => 0

/-- The largest height of a constant in the term. -/
def height (env : Env) : Term → Nat
  | .const c _ => env.constHeight c
  | .app f a => Nat.max (env.height f) (env.height a)
  | .lam _ t b | .pi _ _ t b => Nat.max (env.height t) (env.height b)
  | _ => 0

/-- The height of the constant at the head. -/
def headHeight (env : Env) (m : Term) : Nat :=
  match m.head with
  | .const c _ => env.constHeight c
  | _ => 0

/-- The value of a definition at the given levels, if it takes that many. -/
def unfoldConst? (env : Env) (c : Name) (levels : List Level) : Option Term :=
  match env.get? c with
  | some ⟨_, params, _, .definition value _⟩ =>
    if params.length = levels.length then some (value.instantiateLevelParams params levels) else none
  | _ => none

/-- Replaces the definition at the head by its value, contracted with the arguments. -/
def unfoldHead? (env : Env) (m : Term) : Option Term :=
  match m.head with
  | .const c levels => (env.unfoldConst? c levels).map (·.beta m.args)
  | _ => none

end Env

end ProofAssistant
