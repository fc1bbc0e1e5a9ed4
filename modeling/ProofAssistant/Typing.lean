import ProofAssistant.Conversion
import ProofAssistant.Typing.Error

/-!
# Type checking

`Env.infer` gives the type of a term in a context, `Env.check` compares it with an expected type and
`Env.inferSort` reads it as a sort. Only parameters listed as declared may occur in levels; neither
holes nor universe metavariables are accepted.

A result is a type or a type error, or nothing within the fuel. `next` is the least number that no
identity has; under a binder the body is opened with a new hypothesis of that number.
-/

namespace ProofAssistant

/-- A computation that may fail, or give no answer within its fuel. -/
abbrev Fueled (ε α : Type) := ExceptT ε Option α

/-- A computation that gives no answer. -/
def Fueled.exhausted {ε α : Type} : Fueled ε α :=
  ExceptT.mk none

/-- A computation that cannot fail. -/
def Fueled.ofOption {ε α : Type} (x : Option α) : Fueled ε α :=
  ExceptT.mk (x.map .ok)

namespace Env

/-- Rejects `m` for the given cause. -/
def reject {α : Type} (Γ : Context) (m : Term) (cause : TypeError.Cause) : Fueled TypeError α :=
  throw ⟨cause, m, Γ⟩

/-- Rejects a level with a metavariable or a parameter that is not declared. -/
def checkLevel (params : List Name) (Γ : Context) (m : Term) (l : Level) : Fueled TypeError Unit :=
  if l.hasMVar then reject Γ m .unexpectedLevelMVar
  else
    match l.params.find? (!params.contains ·) with
    | some p => reject Γ m (.undeclaredLevelParam p)
    | none => pure ()

/-- The type of a declaration at the given levels, which must be as many as its parameters. -/
def instantiateType (params : List Name) (Γ : Context) (m : Term) (c : Name) (declared : List Name)
    (levels : List Level) (type : Term) : Fueled TypeError Term := do
  if declared.length ≠ levels.length then
    reject Γ m (.levelArityMismatch c declared.length levels.length)
  levels.forM (checkLevel params Γ m)
  return type.instantiateLevelParams declared levels

mutual

/-- The type of a term. -/
def infer (env : Env) (params : List Name) :
    (fuel next : Nat) → Context → Term → Fueled TypeError Term
  | 0, _, _, _ => .exhausted
  | fuel + 1, next, Γ, m =>
    match m with
    | .var i => reject Γ m (.looseBoundVariable i)
    | .free x =>
      match Γ.get? x with
      | some h => pure h.type
      | none => reject Γ m (.unboundVariable x)
    | .sort l => do
      checkLevel params Γ m l
      return .sort (.succ l)
    | .const c levels =>
      match env.get? c with
      | none => reject Γ m (.unknownConstant c)
      | some d =>
        match d.kind with
        | .constructor .. => reject Γ m (.malformed (.constructorAsConstant c))
        | _ => instantiateType params Γ m c d.levelParams levels d.type
    | .ctor family index _ levels =>
      match env.inductive? family with
      | none => reject Γ m (.unknownInductive family)
      | some t =>
        match t.ctors[index]? with
        | none => reject Γ m (.malformed (.noConstructor family index))
        | some c => instantiateType params Γ m c.name t.levelParams levels c.type
    | .app f a => do
      let fType ← Fueled.ofOption (env.whnf fuel (← env.infer params fuel next Γ f))
      match fType with
      | .pi _ _ t b => do
        env.check params fuel next Γ a t
        return b.instantiate a
      | _ => reject Γ m (.functionExpected fType)
    | .lam x t b => do
      let _ ← env.inferSort params fuel next Γ t
      let h := Local.new next x t
      let bType ← env.infer params fuel (next + 1) (Γ.add h) (b.instantiate h.term)
      return .pi x false t (bType.close [h.id] 0)
    | .pi x _ t b => do
      let l ← env.inferSort params fuel next Γ t
      let h := Local.new next x t
      let l' ← env.inferSort params fuel (next + 1) (Γ.add h) (b.instantiate h.term)
      return .sort (.imax l l')
    | .hole h _ => reject Γ m (.unexpectedHole h)

/-- The level of the sort that a type lives in. -/
def inferSort (env : Env) (params : List Name) :
    (fuel next : Nat) → Context → Term → Fueled TypeError Level
  | 0, _, _, _ => .exhausted
  | fuel + 1, next, Γ, m => do
    let type ← Fueled.ofOption (env.whnf fuel (← env.infer params fuel next Γ m))
    match type with
    | .sort l => return l
    | _ => reject Γ m (.sortExpected type)

/-- Accepts a term whose type is convertible to the expected one. -/
def check (env : Env) (params : List Name) :
    (fuel next : Nat) → Context → Term → Term → Fueled TypeError Unit
  | 0, _, _, _, _ => .exhausted
  | fuel + 1, next, Γ, m, expected => do
    let inferred ← env.infer params fuel next Γ m
    if !(← Fueled.ofOption (env.isDefEq fuel next inferred expected)) then
      reject Γ m (.typeMismatch expected inferred)

end

end Env

end ProofAssistant
