import ProofAssistant.Term

/-!
# Binding and substitution

Opening replaces the outermost loose indices of a body by terms, closing turns hypotheses back into
indices. Terms that are put under binders are lifted, so loose indices in them keep their meaning.
Every traversal returns a term as it is once the facts kept at its root show that nothing in it can
change.
-/

namespace ProofAssistant

namespace Term

/-- Adds `n` to the loose indices from `k` on. -/
def lift (n k : Nat) (m : Term) : Term :=
  if n = 0 ∨ m.looseBound ≤ k then m
  else
    match m with
    | .var i => .var (i + n)
    | .app f a => .app (f.lift n k) (a.lift n k)
    | .lam x t b => .lam x (t.lift n k) (b.lift n (k + 1))
    | .pi x i t b => .pi x i (t.lift n k) (b.lift n (k + 1))
    | m => m

/-- Replaces the loose indices from `k` on by `xs`, the last of `xs` for `k` itself; indices past
them drop by the number of `xs`. -/
def openAt (xs : List Term) (k : Nat) (m : Term) : Term :=
  if m.looseBound ≤ k then m
  else
    match m with
    | .var i =>
      if i < k then .var i
      else
        match xs.reverse[i - k]? with
        | some x => x.lift k 0
        | none => .var (i - xs.length)
    | .app f a => .app (f.openAt xs k) (a.openAt xs k)
    | .lam x t b => .lam x (t.openAt xs k) (b.openAt xs (k + 1))
    | .pi x i t b => .pi x i (t.openAt xs k) (b.openAt xs (k + 1))
    | m => m

/-- The body of a binder with a term for its variable. -/
def instantiate (body x : Term) : Term :=
  body.openAt [x] 0

/-- Turns the hypotheses `xs` into loose indices from `k` on, the last of `xs` into `k` itself. -/
def close (xs : List Id) (k : Nat) (m : Term) : Term :=
  if !m.hasFree then m
  else
    match m with
    | .free x =>
      match xs.reverse.idxOf? x with
      | some i => .var (k + i)
      | none => .free x
    | .app f a => .app (f.close xs k) (a.close xs k)
    | .lam x t b => .lam x (t.close xs k) (b.close xs (k + 1))
    | .pi x i t b => .pi x i (t.close xs k) (b.close xs (k + 1))
    | m => m

/-- Replaces hypotheses by terms, which are taken as they stand also under binders. -/
def substFree (value : Id → Option Term) (m : Term) : Term :=
  if !m.hasFree then m
  else
    match m with
    | .free x => (value x).getD (.free x)
    | .app f a => .app (f.substFree value) (a.substFree value)
    | .lam x t b => .lam x (t.substFree value) (b.substFree value)
    | .pi x i t b => .pi x i (t.substFree value) (b.substFree value)
    | m => m

/-- Replaces each hypothesis by the first term listed for it. -/
def subst (values : List (Id × Term)) (m : Term) : Term :=
  m.substFree fun x => values.lookup x

/-- A term applied to arguments, with the abstractions that meet an argument contracted. -/
def beta : Term → List Term → Term
  | .lam _ _ b, a :: as => (b.instantiate a).beta as
  | m, as => m.apply as
termination_by structural _ as => as

/-! ## Occurrences -/

/-- The hypothesis occurs. -/
def containsFree (x : Id) (m : Term) : Bool :=
  if !m.hasFree then false
  else
    match m with
    | .free y => y == x
    | .app f a => f.containsFree x || a.containsFree x
    | .lam _ t b => t.containsFree x || b.containsFree x
    | .pi _ _ t b => t.containsFree x || b.containsFree x
    | _ => false

/-- A number above those of all hypotheses that occur. -/
def freeBound (m : Term) : Nat :=
  if !m.hasFree then 0
  else
    match m with
    | .free x => x.number + 1
    | .app f a => Nat.max f.freeBound a.freeBound
    | .lam _ t b => Nat.max t.freeBound b.freeBound
    | .pi _ _ t b => Nat.max t.freeBound b.freeBound
    | _ => 0

/-- Every hypothesis that occurs is one of `xs`. -/
def isSupportedBy (xs : List Id) (m : Term) : Bool :=
  if !m.hasFree then true
  else
    match m with
    | .free y => xs.contains y
    | .app f a => f.isSupportedBy xs && a.isSupportedBy xs
    | .lam _ t b => t.isSupportedBy xs && b.isSupportedBy xs
    | .pi _ _ t b => t.isSupportedBy xs && b.isSupportedBy xs
    | _ => true

/-- The loose index occurs. -/
def containsVar (i : Nat) (m : Term) : Bool :=
  if m.looseBound ≤ i then false
  else
    match m with
    | .var j => j == i
    | .app f a => f.containsVar i || a.containsVar i
    | .lam _ t b => t.containsVar i || b.containsVar (i + 1)
    | .pi _ _ t b => t.containsVar i || b.containsVar (i + 1)
    | _ => false

/-- The constant occurs, or a constructor of the inductive type of that name. -/
def containsConst (c : Name) : Term → Bool
  | .const d _ => d == c
  | .ctor t _ _ _ => t == c
  | .app f a => f.containsConst c || a.containsConst c
  | .lam _ t b => t.containsConst c || b.containsConst c
  | .pi _ _ t b => t.containsConst c || b.containsConst c
  | _ => false

/-- The subterms without loose indices, a term before its parts and the parts from the left. -/
def closedSubterms (m : Term) : List Term :=
  let below :=
    match m with
    | .app f a => f.closedSubterms ++ a.closedSubterms
    | .lam _ t b => t.closedSubterms ++ b.closedSubterms
    | .pi _ _ t b => t.closedSubterms ++ b.closedSubterms
    | _ => []
  if m.looseBound = 0 then m :: below else below

/-- Puts the index `depth` for occurrences of `pattern`, shifting the loose indices from `depth` on to
make room. Occurrences are counted from the left, `seen` of them before this term; only the selected
ones are replaced. Answers the new term and the count. -/
def abstractAt (m pattern : Term) (selected : Nat → Bool) (depth seen : Nat) : Term × Nat :=
  if m.alphaEq pattern then
    if selected (seen + 1) then (.var depth, seen + 1) else (m.lift 1 depth, seen + 1)
  else
    match m with
    | .var i => (if depth ≤ i then .var (i + 1) else .var i, seen)
    | .app f a =>
      let (f, seen) := f.abstractAt pattern selected depth seen
      let (a, seen) := a.abstractAt pattern selected depth seen
      (.app f a, seen)
    | .lam x t b =>
      let (t, seen) := t.abstractAt pattern selected depth seen
      let (b, seen) := b.abstractAt pattern selected (depth + 1) seen
      (.lam x t b, seen)
    | .pi x i t b =>
      let (t, seen) := t.abstractAt pattern selected depth seen
      let (b, seen) := b.abstractAt pattern selected (depth + 1) seen
      (.pi x i t b, seen)
    | m => (m, seen)

/-- Replaces the occurrences of `pattern`, or only the given one, counted from one, by a variable
bound just outside the term. Nothing if there is none to replace. -/
def abstractOccurrences (m pattern : Term) (occurrence : Option Nat) : Option Term :=
  let selected k := occurrence.all (· == k)
  let (body, seen) := m.abstractAt pattern selected 0 0
  let found : Bool :=
    match occurrence with
    | none => 0 < seen
    | some k => 0 < k && k ≤ seen
  if found then some body else none

end Term

end ProofAssistant
