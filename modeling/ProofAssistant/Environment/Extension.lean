import ProofAssistant.Typing

/-!
# Extending an environment

Each operation checks what it is given and answers the environment with the addition, or a type error.
A failing operation thus changes nothing.
-/

namespace ProofAssistant

namespace Env

/-- Rejects a name that is not valid or has been declared. -/
def checkFresh (env : Env) (c : Name) (m : Term) : Fueled TypeError Unit := do
  if !c.isValid then reject {} m (.invalidName c)
  if (env.get? c).isSome then reject {} m (.alreadyDeclared c)

/-- Adds a postulate. -/
def addPostulate (env : Env) (fuel next : Nat) (c : Name) (params : List Name) (type : Term) :
    Fueled TypeError Env := do
  env.checkFresh c type
  let _ ← env.inferSort params fuel next {} type
  return env.insert ⟨c, params, type, .postulate⟩

/-- Adds a definition. -/
def addDefinition (env : Env) (fuel next : Nat) (c : Name) (params : List Name)
    (type value : Term) : Fueled TypeError Env := do
  env.checkFresh c type
  let _ ← env.inferSort params fuel next {} type
  env.check params fuel next {} value type
  return env.insert ⟨c, params, type, .definition value (env.height value + 1)⟩

/-- Adds a theorem, whose statement must be a proposition. -/
def addTheorem (env : Env) (fuel next : Nat) (c : Name) (params : List Name)
    (type proof : Term) : Fueled TypeError Env := do
  env.checkFresh c type
  let l ← env.inferSort params fuel next {} type
  if !l.isZero then reject {} type (.notAProposition (.sort l))
  env.check params fuel next {} proof type
  return env.insert ⟨c, params, type, .proven proof⟩

/-! ## Registrations -/

/-- Makes an inductive type a class. -/
def addClass (env : Env) (c : Name) : Fueled TypeError Env := do
  if (env.inductive? c).isNone then reject {} (.const c []) (.unknownInductive c)
  return { env with classes := c :: env.classes, version := env.version + 1 }

/-- The result of a type after its products. -/
def resultType : Term → Term
  | .pi _ _ _ b => resultType b
  | m => m

/-- Registers a declaration as an instance of the class its type results in. -/
def addInstance (env : Env) (c : Name) (priority : UInt32) : Fueled TypeError Env :=
  match env.get? c with
  | none => reject {} (.const c []) (.unknownConstant c)
  | some d =>
    match (resultType d.type).head with
    | .const cls _ =>
      if env.isClass cls then
        return { env with
          instances := env.instances ++ [(cls, ⟨c, priority⟩)], version := env.version + 1 }
      else reject {} d.type (.malformed (.notAnInstance c))
    | _ => reject {} d.type (.malformed (.notAnInstance c))

/-- Registers the rule that chains a `left` step with a `right` step; a later rule for the same two
relations replaces an earlier one. -/
def addTrans (env : Env) (left right rule : Name) : Fueled TypeError Env := do
  [left, right, rule].forM fun c =>
    if (env.get? c).isNone then reject {} (.const rule []) (.unknownConstant c) else pure ()
  return { env with
    transRules := ((left, right), rule) :: env.transRules, version := env.version + 1 }

end Env

end ProofAssistant
