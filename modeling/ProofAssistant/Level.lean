import ProofAssistant.Text

/-!
# Universe levels

Levels are built from zero, successor, maximum and `imax`, over parameters of declarations and
metavariables of the elaborator; `imax u v` is zero when `v` is and the maximum otherwise, so that a
product of propositions is a proposition whatever it ranges over.

Two levels are compared through a normal form, a maximum of *summands* `a + k` where `a` is zero, a
parameter, a metavariable or an `imax` that is stuck on its second argument. `Level.normalize` sorts
the summands and keeps each base once, with the largest of its offsets.
-/

namespace ProofAssistant

/-- A universe level. -/
inductive Level where
  | zero
  | succ (l : Level)
  | max (a b : Level)
  | imax (a b : Level)
  | param (name : Name)
  | mvar (id : Id)
deriving DecidableEq, Inhabited

namespace Level

/-- The level one, in which the small types live. -/
def one : Level := .succ .zero

/-- Adds a number to a level. -/
def addOffset (l : Level) : Nat → Level
  | 0 => l
  | k + 1 => .succ (l.addOffset k)

/-- The level of a number. -/
def ofNat (n : Nat) : Level :=
  addOffset .zero n

/-- The level under the outermost successors. -/
def base : Level → Level
  | .succ l => l.base
  | l => l

/-- The number of outermost successors. -/
def offset : Level → Nat
  | .succ l => l.offset + 1
  | _ => 0

@[simp] theorem addOffset_base_offset (l : Level) : l.base.addOffset l.offset = l := by
  induction l with
  | succ l ih => rw [base, offset, addOffset, ih]
  | _ => rfl

/-- A level that is positive by its shape. -/
def isNeverZero : Level → Bool
  | .zero | .param _ | .mvar _ => false
  | .succ _ => true
  | .max a b => a.isNeverZero || b.isNeverZero
  | .imax _ b => b.isNeverZero

/-- Replaces parameters and metavariables. -/
def subst (onParam : Name → Level) (onMVar : Id → Level) : Level → Level
  | .zero => .zero
  | .succ l => .succ (l.subst onParam onMVar)
  | .max a b => .max (a.subst onParam onMVar) (b.subst onParam onMVar)
  | .imax a b => .imax (a.subst onParam onMVar) (b.subst onParam onMVar)
  | .param p => onParam p
  | .mvar id => onMVar id

/-- The level that a parameter list and an argument list give to a parameter: its first match, or
itself if there is none. -/
def lookupParam (params : List Name) (args : List Level) (p : Name) : Level :=
  ((params.zip args).lookup p).getD (.param p)

/-- Replaces each parameter by its argument. -/
def instantiateParams (params : List Name) (args : List Level) (l : Level) : Level :=
  l.subst (lookupParam params args) .mvar

/-- The metavariables of a level, from the left. -/
def mvars : Level → List Id
  | .zero | .param _ => []
  | .succ l => l.mvars
  | .max a b | .imax a b => a.mvars ++ b.mvars
  | .mvar id => [id]

/-- The parameters of a level, from the left. -/
def params : Level → List Name
  | .zero | .mvar _ => []
  | .succ l => l.params
  | .max a b | .imax a b => a.params ++ b.params
  | .param p => [p]

/-- A level with a metavariable. -/
def hasMVar : Level → Bool
  | .zero | .param _ => false
  | .succ l => l.hasMVar
  | .max a b | .imax a b => a.hasMVar || b.hasMVar
  | .mvar _ => true

/-- A level with the given metavariable. -/
def containsMVar (id : Id) (l : Level) : Bool :=
  l.mvars.contains id

/-- The constructors in ascending order. -/
def rank : Level → Nat
  | .zero => 0
  | .succ _ => 1
  | .max .. => 2
  | .imax .. => 3
  | .param _ => 4
  | .mvar _ => 5

/-- A linear order of levels as trees: by constructor, then by arguments from the left. -/
protected def compare : Level → Level → Ordering
  | .succ a, .succ b => a.compare b
  | .max a₁ b₁, .max a₂ b₂ => (a₁.compare a₂).then (b₁.compare b₂)
  | .imax a₁ b₁, .imax a₂ b₂ => (a₁.compare a₂).then (b₁.compare b₂)
  | .param p, .param q => compare p q
  | .mvar i, .mvar j => compare i j
  | a, b => compare a.rank b.rank

instance : Ord Level := ⟨Level.compare⟩

/-! ## Normal forms -/

/-- A base with an offset: the level `base + offset`. -/
structure Summand where
  base : Level
  offset : Nat
deriving DecidableEq, Inhabited

namespace Summand

/-- The summand as a level. -/
def toLevel (s : Summand) : Level :=
  s.base.addOffset s.offset

/-- Adds one. -/
def succ (s : Summand) : Summand :=
  { s with offset := s.offset + 1 }

/-- Adds a summand to a list in ascending order of bases; of two summands on one base the larger
stays. -/
def insert (s : Summand) : List Summand → List Summand
  | [] => [s]
  | t :: ts =>
    match compare s.base t.base with
    | .lt => s :: t :: ts
    | .eq => { t with offset := Nat.max t.offset s.offset } :: ts
    | .gt => t :: insert s ts

end Summand

/-- The maximum of some levels, associated to the left; zero if there are none. -/
def maxOf : List Level → Level
  | [] => .zero
  | l :: ls => ls.foldl .max l

/-- The largest offset of a summand on zero. -/
def constantOf (ss : List Summand) : Nat :=
  ss.foldl (fun k s => if s.base = .zero then Nat.max k s.offset else k) 0

/-- The summands on bases other than zero, sorted and merged. -/
def atomsOf (ss : List Summand) : List Summand :=
  ss.foldl (fun atoms s => if s.base = .zero then atoms else Summand.insert s atoms) []

/-- The normal form of a maximum of summands. The constant is written, and stands first, only if it
is positive and above every other offset. -/
def ofSummands (ss : List Summand) : Level :=
  let constant := constantOf ss
  let atoms := atomsOf ss
  let bases := atoms.map Summand.toLevel
  if 0 < constant && atoms.all (·.offset < constant) then
    maxOf (ofNat constant :: bases)
  else
    maxOf bases

/-- The summands of a level, given those of the arguments of its `imax`es. An `imax` is the maximum
of its arguments if the second is never zero, zero if the second is, and a summand of its own
otherwise. -/
def summandsWith (inner : Level → List Summand) : Level → List Summand
  | .zero => [⟨.zero, 0⟩]
  | .succ l => (summandsWith inner l).map Summand.succ
  | .max a b => summandsWith inner a ++ summandsWith inner b
  | .imax a b =>
    let b := ofSummands (inner b)
    if b.isNeverZero then inner a ++ inner b
    else if b = .zero then [⟨.zero, 0⟩]
    else [⟨.imax (ofSummands (inner a)) b, 0⟩]
  | .param p => [⟨.param p, 0⟩]
  | .mvar id => [⟨.mvar id, 0⟩]

/-- The summands of a level in which at most `depth` many `imax`es are nested. -/
def summands : (depth : Nat) → Level → List Summand
  | 0, l => summandsWith (fun l => [⟨l, 0⟩]) l
  | depth + 1, l => summandsWith (summands depth) l

/-- How many `imax`es are nested. -/
def imaxDepth : Level → Nat
  | .zero | .param _ | .mvar _ => 0
  | .succ l => l.imaxDepth
  | .max a b => Nat.max a.imaxDepth b.imaxDepth
  | .imax a b => Nat.max a.imaxDepth b.imaxDepth + 1

/-- The normal form of a level. -/
def normalize (l : Level) : Level :=
  ofSummands (summands l.imaxDepth l)

/-- A level whose normal form is zero. -/
def isZero (l : Level) : Bool :=
  l.normalize == .zero

/-- Levels with the same normal form. -/
def isEquiv (a b : Level) : Bool :=
  a == b || a.normalize == b.normalize

/-- A level that adds nothing to the other under maximum. -/
def isLeq (a b : Level) : Bool :=
  (Level.max a b).isEquiv b

/-! ## Printing -/

/-- The text of `l + k`: a number as such, any other level with its offset after its base. -/
def printFrom : (k : Nat) → (l : Level) → Text
  | k, .succ l => printFrom (k + 1) l
  | k, .zero => k.repr
  | k, .param p => withOffset k p.text
  | k, .mvar id => withOffset k ("?u" ++ .number id.number)
  | k, .max a b => withOffset k ("max (" ++ printFrom 0 a ++ ") (" ++ printFrom 0 b ++ ")")
  | k, .imax a b => withOffset k ("imax (" ++ printFrom 0 a ++ ") (" ++ printFrom 0 b ++ ")")
where
  /-- Writes a positive offset after the text of a base. -/
  withOffset (k : Nat) (base : Text) : Text :=
    if k = 0 then base else base ++ "+" ++ k.repr

/-- The text of a level. -/
def print (l : Level) : Text :=
  printFrom 0 l

end Level

end ProofAssistant
