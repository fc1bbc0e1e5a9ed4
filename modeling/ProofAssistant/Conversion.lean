import ProofAssistant.Reduction

/-!
# Conversion

`Env.isDefEq` compares two terms up to β, ι, δ and η, and levels up to their normal forms. Terms are
reduced only as far as needed: heads are compared before the definitions at the heads are unfolded, the
one of greater height first.

Under a binder the two bodies are opened with one hypothesis of a new identity; `next` is the least
number that has not been used. Fuel is as for reduction.
-/

namespace ProofAssistant

namespace Env

/-- All pairs of the two lists satisfy the test, from the left and up to the shorter list; the first
pair that does not ends the search. -/
def allPairs {m : Type → Type} [Monad m] {α : Type} (test : α → α → m Bool) :
    List α → List α → m Bool
  | a :: as, b :: bs => do
    if ← test a b then allPairs test as bs else return false
  | _, _ => return true

/-- The pairs of the two lists, up to the shorter list, are equivalent levels. -/
def levelsEquiv (ls ls' : List Level) : Bool :=
  (ls.zip ls').all fun (l, l') => l.isEquiv l'

/-- The same head of two applications: levels of constants are as many and equivalent, levels of
constructors are equivalent as far as both go. -/
def headsEq : Term → Term → Bool
  | .free x, .free y => x == y
  | .const c ls, .const c' ls' => c == c' && ls.length == ls'.length && levelsEquiv ls ls'
  | .ctor t i _ ls, .ctor t' i' _ ls' => t == t' && i == i' && levelsEquiv ls ls'
  | .var i, .var j => i == j
  | .hole h _, .hole h' _ => h == h'
  | _, _ => false

/-- Two applications with the same head and as many arguments, which pass the test pairwise. -/
def spinesEq (test : Term → Term → Option Bool) (a b : Term) : Option Bool :=
  if a.args.length = b.args.length ∧ headsEq a.head b.head then allPairs test a.args b.args
  else some false

mutual

/-- The terms are convertible. -/
def isDefEq (env : Env) : (fuel next : Nat) → Term → Term → Option Bool
  | 0, _, _, _ => none
  | fuel + 1, next, a, b =>
    if a.alphaEq b then some true
    else do
      env.isDefEqCore fuel next (← env.whnfCore fuel a) (← env.whnfCore fuel b)

/-- The terms, in weak head normal form by β and ι, are convertible. -/
def isDefEqCore (env : Env) : (fuel next : Nat) → Term → Term → Option Bool
  | 0, _, _, _ => none
  | fuel + 1, next, a, b =>
    if a.alphaEq b then some true
    else
      let x : Term := .free ⟨next, none⟩
      match a, b with
      | .sort l, .sort l' => some (l.isEquiv l')
      | .pi _ _ t m, .pi _ _ t' m' | .lam _ t m, .lam _ t' m' => do
        if ← env.isDefEq fuel next t t' then
          env.isDefEq fuel (next + 1) (m.instantiate x) (m'.instantiate x)
        else some false
      | .lam _ _ m, _ => env.isDefEq fuel (next + 1) (m.instantiate x) (b.app x)
      | _, .lam _ _ m => env.isDefEq fuel (next + 1) (m.instantiate x) (a.app x)
      | _, _ => do
        if ← spinesEq (env.isDefEq fuel next) a b then some true
        else env.isDefEqDelta fuel next a b

/-- The terms, whose heads or arguments differ, are convertible after unfolding: the definition of
greater height, or both if the heights are the same. -/
def isDefEqDelta (env : Env) : (fuel next : Nat) → Term → Term → Option Bool
  | 0, _, _, _ => none
  | fuel + 1, next, a, b =>
    let ha := env.headHeight a
    let hb := env.headHeight b
    let a' := if hb ≤ ha then env.unfoldHead? a else none
    let b' := if ha ≤ hb then env.unfoldHead? b else none
    if (ha = 0 ∧ hb = 0) ∨ (a'.isNone ∧ b'.isNone) then some false
    else do
      let a ← (a'.map (env.whnfCore fuel)).getD (some a)
      let b ← (b'.map (env.whnfCore fuel)).getD (some b)
      env.isDefEqCore fuel next a b

end

end Env

end ProofAssistant
