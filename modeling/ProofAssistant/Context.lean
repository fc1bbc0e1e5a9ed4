import ProofAssistant.Term.Hole
import ProofAssistant.Term.Universe

/-!
# Contexts

A context lists the hypotheses in scope, the oldest first; the type of each may mention those before
it. Names are looked up from the newest, so that a later hypothesis hides an earlier one of the same
name; `Context.push` also renames the one it hides, which keeps the names in a printed goal apart.
-/

namespace ProofAssistant

/-- A hypothesis. -/
structure Local where
  id : Id
  name : Name
  type : Term
deriving DecidableEq, Inhabited

/-- The hypothesis of the given number, whose identity remembers its name. -/
def Local.new (number : Nat) (name : Name) (type : Term) : Local :=
  ⟨⟨number, some name⟩, name, type⟩

/-- The hypothesis as a term. -/
def Local.term (x : Local) : Term := .free x.id

/-- The hypotheses in scope, the oldest first. -/
structure Context where
  locals : List Local := []
deriving DecidableEq, Inhabited

namespace Context

/-- The hypothesis of the given identity. -/
def get? (Γ : Context) (x : Id) : Option Local :=
  Γ.locals.reverse.find? (·.id == x)

/-- The newest hypothesis of the given name. -/
def find? (Γ : Context) (n : Name) : Option Local :=
  Γ.locals.reverse.find? (·.name == n)

/-- The place of a hypothesis, counted from the oldest. -/
def position? (Γ : Context) (x : Id) : Option Nat :=
  Γ.locals.findIdx? (·.id == x)

/-- The identities of the hypotheses. -/
def ids (Γ : Context) : List Id :=
  Γ.locals.map Local.id

/-- A number above those of all hypotheses. -/
def bound (Γ : Context) : Nat :=
  (Γ.locals.map fun x => x.id.number + 1).foldl Nat.max 0

/-- The hypotheses as terms. -/
def terms (Γ : Context) : List Term :=
  Γ.locals.map Local.term

/-- The names of the hypotheses. -/
def names (Γ : Context) : List Name :=
  Γ.locals.map Local.name

/-- Adds a hypothesis and leaves the names of the others alone. -/
def add (Γ : Context) (x : Local) : Context :=
  ⟨Γ.locals ++ [x]⟩

@[simp] theorem locals_add (Γ : Context) (x : Local) : (Γ.add x).locals = Γ.locals ++ [x] := rfl

/-- Renames the last hypothesis of name `old`. -/
def renameLast (old new : Name) : List Local → List Local
  | [] => []
  | x :: xs =>
    if xs.any (·.name == old) then x :: renameLast old new xs
    else if x.name = old then { x with name := new } :: xs
    else x :: xs

@[simp] theorem ids_renameLast (old new : Name) (xs : List Local) :
    (renameLast old new xs).map Local.id = xs.map Local.id := by
  induction xs with
  | nil => rfl
  | cons x xs ih => unfold renameLast; split <;> (try split) <;> simp [ih]

/-- Adds a hypothesis. An older one of the same name becomes inaccessible, under a name that no
hypothesis has. -/
def push (Γ : Context) (x : Local) : Context :=
  if x.name.isAnonymous then Γ.add x
  else
    let fresh := Name.firstFree Γ.names Γ.names.length x.name.inaccessible
    add ⟨renameLast x.name fresh Γ.locals⟩ x

@[simp] theorem ids_push (Γ : Context) (x : Local) : (Γ.push x).ids = Γ.ids ++ [x.id] := by
  unfold push; split <;> simp [ids]

/-- Adds some hypotheses in order. -/
def pushAll (Γ : Context) (xs : List Local) : Context :=
  xs.foldl push Γ

end Context

namespace Term

/-- Binds hypotheses around a term that has been closed over them: `xs` are still to be bound, and
`before` are bound outside. -/
def bindAll (bind : Local → Term → Term → Term) : (before : List Id) → (xs : List Local) → Term → Term
  | _, [], body => body
  | before, x :: xs, body =>
    bind x (x.type.close before 0) (bindAll bind (before ++ [x.id]) xs body)

/-- The abstraction over some hypotheses, the first outermost. -/
def abs (xs : List Local) (m : Term) : Term :=
  bindAll (fun x t b => .lam x.name t b) [] xs (m.close (xs.map Local.id) 0)

/-- The product over some hypotheses with explicit binders, the first outermost. -/
def pis (xs : List Local) (m : Term) : Term :=
  bindAll (fun x t b => .pi x.name false t b) [] xs (m.close (xs.map Local.id) 0)

end Term

end ProofAssistant
