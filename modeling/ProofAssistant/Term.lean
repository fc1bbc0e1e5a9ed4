import ProofAssistant.Level

/-!
# Terms

Terms of a dependent type theory in locally nameless form: a bound variable is an index that counts
the binders between it and its own, a hypothesis is a free variable with an identity. A constructor
stands for itself, apart from the constants, by its type, its place among the constructors of that type
and its universe arguments; the name it carries is for printing. A hole is an unknown, with an identity
only: its type and the hypotheses it may use are kept where holes are declared.

Each node carries three facts about the term below it, which let traversals stop early: a bound on its
loose indices, whether it has a hypothesis and whether it has a hole.

An application is seen as its head on a list of arguments: `Term.head_apply`, `Term.args_apply` and
`Term.apply_head_args` say that this view loses nothing.
-/

namespace ProofAssistant

/-- A term, or a type. -/
inductive Term where
  /-- A bound variable; `0` belongs to the nearest binder. -/
  | var (index : Nat)
  | sort (level : Level)
  | const (name : Name) (levels : List Level)
  /-- The constructor at place `index` of the inductive type `family`. -/
  | ctor (family : Name) (index : Nat) (name : Name) (levels : List Level)
  | app (fn arg : Term)
  | lam (binder : Name) (type body : Term)
  | pi (binder : Name) (implicit : Bool) (type body : Term)
  /-- A hypothesis. -/
  | free (id : Id)
  /-- An unknown; a deferred one is left to the reader and never solved. -/
  | hole (id : Id) (deferred : Bool)
with
  /-- All loose indices are below this number, and it is the least such number. -/
  @[computed_field] looseBound : Term → Nat
    | .var i => i + 1
    | .app f a => Nat.max f.looseBound a.looseBound
    | .lam _ t b => Nat.max t.looseBound (b.looseBound - 1)
    | .pi _ _ t b => Nat.max t.looseBound (b.looseBound - 1)
    | .sort _ | .const .. | .ctor .. | .free _ | .hole .. => 0
  /-- Some hypothesis occurs. -/
  @[computed_field] hasFree : Term → Bool
    | .app f a => f.hasFree || a.hasFree
    | .lam _ t b => t.hasFree || b.hasFree
    | .pi _ _ t b => t.hasFree || b.hasFree
    | .free _ => true
    | .var _ | .sort _ | .const .. | .ctor .. | .hole .. => false
  /-- Some hole occurs. -/
  @[computed_field] hasHole : Term → Bool
    | .app f a => f.hasHole || a.hasHole
    | .lam _ t b => t.hasHole || b.hasHole
    | .pi _ _ t b => t.hasHole || b.hasHole
    | .hole .. => true
    | .var _ | .sort _ | .const .. | .ctor .. | .free _ => false
deriving DecidableEq

namespace Term

/-- The sort of propositions. -/
def prop : Term := .sort .zero

/-- The sort of small types. -/
def type : Term := .sort .one

instance : Inhabited Term := ⟨prop⟩

/-- A function type whose result does not depend on its argument. -/
def arrow (domain codomain : Term) : Term :=
  .pi .anonymous false domain codomain

/-! ## Application spines -/

/-- The function at the head of an application. -/
def head : Term → Term
  | .app f _ => f.head
  | m => m

/-- The arguments of an application, in front of `rest`. -/
def argsThen : Term → List Term → List Term
  | .app f a, rest => f.argsThen (a :: rest)
  | _, rest => rest

/-- The arguments of an application, in order. -/
def args (m : Term) : List Term :=
  m.argsThen []

/-- A term applied to some arguments. -/
def apply (m : Term) (args : List Term) : Term :=
  args.foldl .app m

@[simp] theorem apply_nil (m : Term) : m.apply [] = m := rfl

@[simp] theorem apply_cons (m a : Term) (as : List Term) :
    m.apply (a :: as) = (m.app a).apply as := rfl

theorem apply_append (m : Term) (as bs : List Term) :
    m.apply (as ++ bs) = (m.apply as).apply bs :=
  List.foldl_append

theorem argsThen_eq_args_append (m : Term) (rest : List Term) :
    m.argsThen rest = m.args ++ rest := by
  induction m generalizing rest with
  | app f a ihf _ => rw [args, argsThen, argsThen, ihf, ihf [a], List.append_assoc]; rfl
  | _ => rfl

@[simp] theorem args_app (f a : Term) : (f.app a).args = f.args ++ [a] :=
  f.argsThen_eq_args_append [a]

@[simp] theorem head_apply (m : Term) (as : List Term) : (m.apply as).head = m.head := by
  induction as generalizing m with
  | nil => rfl
  | cons a as ih => rw [apply_cons, ih, head]

@[simp] theorem args_apply (m : Term) (as : List Term) : (m.apply as).args = m.args ++ as := by
  induction as generalizing m with
  | nil => simp
  | cons a as ih => simp [ih]

/-- A term is its head on its arguments. -/
theorem apply_head_args (m : Term) : m.head.apply m.args = m := by
  induction m with
  | app f a ihf _ => rw [args_app, apply_append, head, ihf]; rfl
  | _ => rfl

/-- An application. -/
def isApp : Term → Bool
  | .app .. => true
  | _ => false

/-- A bare hole. -/
def isHole : Term → Bool
  | .hole .. => true
  | _ => false

/-! ## Equality up to the names of binders -/

/-- The same term, whatever its binders are called and whether they are implicit, and whatever its
constructors are printed as. Levels are compared as trees. -/
def alphaEq : Term → Term → Bool
  | .var i, .var j => i == j
  | .sort l, .sort l' => l == l'
  | .const c ls, .const c' ls' => c == c' && ls == ls'
  | .ctor t i _ ls, .ctor t' i' _ ls' => t == t' && i == i' && ls == ls'
  | .app f a, .app f' a' => f.alphaEq f' && a.alphaEq a'
  | .lam _ t b, .lam _ t' b' => t.alphaEq t' && b.alphaEq b'
  | .pi _ _ t b, .pi _ _ t' b' => t.alphaEq t' && b.alphaEq b'
  | .free x, .free x' => x == x'
  | .hole h _, .hole h' _ => h == h'
  | _, _ => false

@[simp] theorem alphaEq_refl (m : Term) : m.alphaEq m := by
  induction m <;> simp_all [alphaEq]

end Term

end ProofAssistant
