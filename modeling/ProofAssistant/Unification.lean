import ProofAssistant.Elaboration.Inference

/-!
# Unification

`Env.unify` makes two terms convertible by solving holes and universe metavariables in them. A hole
applied to distinct hypotheses is solved by the other side, abstracted over these; other equations are
taken apart by their heads and, failing that, after reduction, as conversion does.

Solutions found before a failure are kept, except in an attempt to match two applications argument by
argument. `next` is the least number that no identity has.
-/

namespace ProofAssistant

/-- A computation that solves holes, within its fuel. -/
abbrev SolveM := StateT Metas Option

namespace SolveM

/-- Takes solutions back if the attempt fails. -/
def orRestore (attempt : SolveM Bool) : SolveM Bool := do
  let before ← get
  if ← attempt then return true
  set before
  return false

end SolveM

/-! ## Levels -/

/-- Makes two levels equivalent. -/
def Level.unify : (fuel : Nat) → Level → Level → SolveM Bool
  | 0, _, _ => failure
  | fuel + 1, a, b => do
    let a := (← get).instantiateLevel a
    let b := (← get).instantiateLevel b
    if a.isEquiv b then return true
    match a, b with
    | .mvar u, l | l, .mvar u =>
      if l.containsMVar u then return false
      modify (·.assignLevel u l)
      return true
    | .succ a, .succ b => Level.unify fuel a b
    | .max a a', .max b b' | .imax a a', .imax b b' =>
      SolveM.orRestore do
        if ← Level.unify fuel a b then Level.unify fuel a' b' else return false
    | _, _ => return false

/-- Makes as many levels pairwise equivalent. -/
def Level.unifyAll (fuel : Nat) (ls ls' : List Level) : SolveM Bool :=
  if ls.length = ls'.length then Env.allPairs (Level.unify fuel) ls ls' else return false

namespace Env

/-- Makes the heads of two applications the same. -/
def unifyHeads (fuel : Nat) : Term → Term → SolveM Bool
  | .const c ls, .const c' ls' => if c = c' then Level.unifyAll fuel ls ls' else return false
  | .ctor t i _ ls, .ctor t' i' _ ls' =>
    if t = t' ∧ i = i' then Level.unifyAll fuel ls ls' else return false
  | .free x, .free y => return x == y
  | .hole h _, .hole h' _ => return h == h'
  | .var i, .var j => return i == j
  | _, _ => return false

/-! ## Patterns -/

/-- A hole on distinct hypotheses `spine`, at least as many as the context of its goal, that may be
solved by the term `m`: it is open, and `m` mentions neither it nor other hypotheses. -/
def solvable? (s : Supply) (μ : Metas) (pattern m : Term) : Option (Goal × List Id) := do
  let p ← pattern.pattern?
  let g ← s.goal? p.hole
  guard (!p.deferred && !μ.isAssigned p.hole && g.context.locals.length ≤ p.spine.length &&
    !m.containsHole p.hole && m.isSupportedBy p.spine)
  return (g, p.spine)

/-- Binders for `count` arguments of a function of the given type, and the type of the result; none if
it does not take so many. -/
def openArguments (env : Env) (μ : Metas) (fuel : Nat) :
    (count next : Nat) → Term → Option (Option (List Local × Term))
  | 0, _, type => some (some ([], type))
  | count + 1, next, type => do
    match ← env.whnfOf μ fuel type with
    | .pi x _ t b =>
      let h := Local.new next x t
      match ← env.openArguments μ fuel count (next + 1) (b.instantiate h.term) with
      | some (hs, result) => return some (h :: hs, result)
      | none => return none
    | _ => return none

mutual

/-- Makes two terms convertible. -/
def unify (env : Env) (s : Supply) : (fuel next : Nat) → Context → Term → Term → SolveM Bool
  | 0, _, _, _, _ => failure
  | fuel + 1, next, Γ, a, b => do
    let a := (← get).instantiate a
    let b := (← get).instantiate b
    if a.alphaEq b then return true
    if let some solved ← env.solve? s fuel next Γ a b then return solved
    if let some solved ← env.solve? s fuel next Γ b a then return solved
    let a' ← env.whnfCore fuel a
    let b' ← env.whnfCore fuel b
    if a'.alphaEq a && b'.alphaEq b then env.unifyCore s fuel next Γ a' b'
    else env.unify s fuel next Γ a' b'

/-- Makes two terms convertible that are in weak head normal form by β and ι and are no patterns to
be solved. -/
def unifyCore (env : Env) (s : Supply) : (fuel next : Nat) → Context → Term → Term → SolveM Bool
  | 0, _, _, _, _ => failure
  | fuel + 1, next, Γ, a, b =>
    match a, b with
    | .sort l, .sort l' => Level.unify fuel l l'
    | .pi x _ t m, .pi _ _ t' m' | .lam x t m, .lam _ t' m' => do
      if ← env.unify s fuel next Γ t t' then
        let h := Local.new next x ((← get).instantiate t)
        env.unify s fuel (next + 1) (Γ.push h) (m.instantiate h.term) (m'.instantiate h.term)
      else return false
    | .lam x t m, f | f, .lam x t m => do
      let h := Local.new next x ((← get).instantiate t)
      env.unify s fuel (next + 1) (Γ.push h) (m.instantiate h.term) (f.app h.term)
    | _, _ => do
      if ← SolveM.orRestore (env.unifySpines s fuel next Γ a b) then return true
      let ha := env.headHeight a
      let hb := env.headHeight b
      let a' := if 0 < ha ∧ hb ≤ ha then env.unfoldHead? a else none
      let b' := if 0 < hb ∧ ha ≤ hb then env.unfoldHead? b else none
      if a'.isNone && b'.isNone then return false
      env.unify s fuel next Γ (a'.getD a) (b'.getD b)

/-- Makes two applications convertible by their heads and arguments. -/
def unifySpines (env : Env) (s : Supply) : (fuel next : Nat) → Context → Term → Term → SolveM Bool
  | 0, _, _, _, _ => failure
  | fuel + 1, next, Γ, a, b => do
    if a.args.length ≠ b.args.length then return false
    if ← unifyHeads fuel a.head b.head then allPairs (env.unify s fuel next Γ) a.args b.args
    else return false

/-- Solves the hole at the head of a pattern by `m`, if it can be; the types are made convertible
first. -/
def solve? (env : Env) (s : Supply) :
    (fuel next : Nat) → Context → (pattern m : Term) → SolveM (Option Bool)
  | 0, _, _, _, _ => failure
  | fuel + 1, next, Γ, pattern, m => do
    let μ ← get
    let some (g, spine) := solvable? s μ pattern m | return none
    let extra := spine.length - g.context.locals.length
    let some (hs, type) ← env.openArguments μ fuel extra next (μ.instantiate g.target) | return none
    let binders := g.context.locals ++ hs
    let next := next + extra
    match ← (env.typeOf s μ fuel next Γ m).run with
    | .error _ => return none
    | .ok inferred =>
      let expected := type.subst ((binders.map Local.id).zip (spine.map Term.free))
      if !(← env.unify s fuel next Γ inferred expected) then return some false
      if (← get).isAssigned g.id then return some (← env.unify s fuel next Γ pattern m)
      modify (·.assign g.id ((m.subst (spine.zip (binders.map Local.term))).abs binders))
      return some true

end

end Env

end ProofAssistant
