import ProofAssistant.Environment

/-!
# Reduction

Weak head normal forms. `Env.whnfCore` contracts abstractions (β) and recursors on constructors (ι) at
the head of a term; `Env.whnf` also unfolds definitions (δ).

Reduction need not end on terms that have no type, so both take fuel, which bounds the steps and their
nesting. Without an answer within the fuel the result is `none`; a result is the same for all larger
amounts.
-/

namespace ProofAssistant

namespace Env

/-- The place of the scrutinee among the arguments of a recursor, after the parameters, the motive and
one minor premise for each constructor. -/
def majorIndex (t : InductiveType) : Nat :=
  t.numParams + 1 + t.ctors.length

/-- The recursor `m` of `t` on the scrutinee `major`, if that is a constructor of `t` with all its
arguments: the minor premise of the constructor on its fields, on a recursive call for each recursive
field, and on the further arguments of `m`. -/
def iota? (t : InductiveType) (m major : Term) : Option Term :=
  match major.head with
  | .ctor family index _ _ =>
    match t.ctors[index]? with
    | some c =>
      if family = t.name ∧ major.args.length = t.numParams + c.numFields then
        let fields := major.args.drop t.numParams
        let recursor := m.head.apply (m.args.take (majorIndex t))
        let calls := ((fields.zip c.recursive).filter Prod.snd).map fun (x, _) => recursor.app x
        let further := m.args.drop (majorIndex t + 1)
        (m.args[t.numParams + 1 + index]?).map (·.beta (fields ++ calls ++ further))
      else none
    | none => none
  | _ => none

mutual

/-- Weak head normal form by β and ι. -/
def whnfCore (env : Env) : (fuel : Nat) → Term → Option Term
  | 0, _ => none
  | fuel + 1, m =>
    match m.head with
    | .lam .. => if m.isApp then env.whnfCore fuel (m.head.beta m.args) else some m
    | .const c _ =>
      match env.recursorOf? c with
      | some t =>
        match m.args[majorIndex t]? with
        | some major => do
          match iota? t m (← env.whnf fuel major) with
          | some m' => env.whnfCore fuel m'
          | none => some m
        | none => some m
      | none => some m
    | _ => some m

/-- Weak head normal form by β, ι and δ. -/
def whnf (env : Env) : (fuel : Nat) → Term → Option Term
  | 0, _ => none
  | fuel + 1, m => do
    let m ← env.whnfCore fuel m
    match env.unfoldHead? m with
    | some m' => env.whnf fuel m'
    | none => some m

end

end Env

end ProofAssistant
