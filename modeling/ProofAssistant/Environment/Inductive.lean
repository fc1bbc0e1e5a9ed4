import ProofAssistant.Environment.Extension

/-!
# Inductive types

An inductive type has uniform parameters and no indices: its type is a product of the parameters into a
sort, and each constructor takes the parameters and then its fields to the type on those parameters. A
field may mention the type only as that very type, so recursion is strictly positive and direct; unless
the type is a proposition, no field lives in a larger universe than the type.

With the type and its constructors comes the recursor: parameters, motive, one minor premise for each
constructor (its fields, then an induction hypothesis for each recursive field) and the scrutinee. A
proposition eliminates into propositions only; otherwise the motive has a universe of its own.
-/

namespace ProofAssistant

/-- An inductive type to be declared, with the full names and types of its constructors. -/
structure InductiveSpec where
  name : Name
  levelParams : List Name
  numParams : Nat
  type : Term
  ctors : List (Name × Term)
deriving DecidableEq

namespace InductiveSpec

/-- The declared universe parameters as levels. -/
def levels (spec : InductiveSpec) : List Level :=
  spec.levelParams.map .param

/-- The name of the recursor. -/
def recursor (spec : InductiveSpec) : Name :=
  spec.name.extend "rec"

/-- The type on its own parameters. -/
def selfApp (spec : InductiveSpec) (params : List Local) : Term :=
  (Term.const spec.name spec.levels).apply (params.map Local.term)

/-- The declaration of the type itself. -/
def decl (spec : InductiveSpec) : Decl :=
  ⟨spec.name, spec.levelParams, spec.type, .inductiveType⟩

/-- Takes `count` parameters off a type, which is reduced as far as needed. -/
def openParams (env : Env) (spec : InductiveSpec) (fuel : Nat) :
    (count next : Nat) → Term → Fueled TypeError (List Local × Term)
  | 0, _, target => pure ([], target)
  | count + 1, next, target => do
    match ← Fueled.ofOption (env.whnf fuel target) with
    | .pi x _ t b =>
      let param := Local.new next x t
      let (params, rest) ← openParams env spec fuel count (next + 1) (b.instantiate param.term)
      return (param :: params, rest)
    | _ => Env.reject {} spec.type (.malformed (.missingParameters spec.name spec.numParams))

/-- A constructor with the hypotheses that stand for its fields. -/
structure OpenedCtor where
  ctor : Constructor
  fields : List Local

/-- Puts the parameters of the type for those of a constructor, whose types must be convertible. -/
def passParams (env : Env) (spec : InductiveSpec) (fuel next : Nat) (Γ : Context)
    (ctor : Name × Term) : List Local → Term → Fueled TypeError Term
  | [], rest => pure rest
  | param :: params, rest => do
    match ← Fueled.ofOption (env.whnf fuel rest) with
    | .pi _ _ t b =>
      if !(← Fueled.ofOption (env.isDefEq fuel next t param.type)) then
        Env.reject Γ ctor.2 (.typeMismatch param.type t)
      passParams env spec fuel next Γ ctor params (b.instantiate param.term)
    | _ => Env.reject Γ ctor.2 (.malformed (.parametersNotTaken ctor.1 spec.name))

/-- Whether a field is of the type itself; it may not mention the type in any other way. -/
def fieldIsRecursive (spec : InductiveSpec) (selfApp : Term) (Γ : Context) (ctor : Name)
    (type : Term) : Fueled TypeError Bool :=
  if !type.containsConst spec.name then pure false
  else
    match type.head with
    | .const c _ =>
      if c = spec.name ∧ type.alphaEq selfApp then pure true
      else Env.reject Γ type (.nonPositive spec.name ctor)
    | _ => Env.reject Γ type (.nonPositive spec.name ctor)

/-- Takes the fields off the type of a constructor, after its parameters. Answers the fields, whether
each is recursive, and what remains. -/
def openFields (env : Env) (spec : InductiveSpec) (sort : Level) (selfApp : Term) (ctor : Name) :
    (fuel next : Nat) → Context → Term →
      Fueled TypeError (List (Local × Bool) × Context × Term)
  | 0, _, _, _ => .exhausted
  | fuel + 1, next, Γ, rest =>
    match rest with
    | .pi x _ t b => do
      let recursive ← spec.fieldIsRecursive selfApp Γ ctor t
      if !sort.isZero then
        let l ← env.inferSort spec.levelParams fuel next Γ t
        if !l.isLeq sort then Env.reject Γ t (.universeTooBig ctor)
      let field := Local.new next x t
      let (fields, last) ←
        openFields env spec sort selfApp ctor fuel (next + 1) (Γ.add field) (b.instantiate field.term)
      return ((field, recursive) :: fields, last)
    | _ => pure ([], Γ, rest)

/-- Checks a constructor. -/
def checkCtor (env : Env) (spec : InductiveSpec) (fuel next : Nat) (params : List Local)
    (sort : Level) (ctor : Name × Term) : Fueled TypeError OpenedCtor := do
  let _ ← env.inferSort spec.levelParams fuel next {} ctor.2
  let rest ← passParams env spec fuel next ⟨params⟩ ctor params ctor.2
  let selfApp := spec.selfApp params
  let (fields, Γ, result) ← openFields env spec sort selfApp ctor.1 fuel next ⟨params⟩ rest
  if !result.alphaEq selfApp then
    Env.reject Γ result (.malformed (.wrongResult ctor.1 selfApp))
  return ⟨⟨ctor.1, ctor.2, fields.length, fields.map Prod.snd⟩, fields.map Prod.fst⟩

/-- The candidates for the universe parameter of a motive: `u`, `u_1`, `u_2`, … -/
def elimCandidate : Nat → Name
  | 0 => ⟨"u"⟩
  | i + 1 => ⟨"u_" ++ (i + 1).repr⟩

/-- The first candidate, from number `i` on, that is not taken, looking past at most `bound` ones. -/
def freshElimLevel (taken : List Name) : (bound i : Nat) → Name
  | 0, i => elimCandidate i
  | bound + 1, i =>
    if elimCandidate i ∈ taken then freshElimLevel taken bound (i + 1) else elimCandidate i

/-- The universe parameter of the motive. -/
def elimLevel (spec : InductiveSpec) (sort : Level) : Option Name :=
  if sort.isZero then none
  else some (freshElimLevel spec.levelParams spec.levelParams.length 0)

/-- The name of the induction hypothesis for a field. -/
def hypothesisName (field : Name) : Name :=
  if field.isAnonymous then ⟨"ih"⟩ else ⟨field.text ++ "_ih"⟩

/-- The minor premise for a constructor: the motive holds of it, given its fields and induction
hypotheses. The hypotheses are numbered from `next` on. -/
def minorType (spec : InductiveSpec) (next : Nat) (params : List Local) (motive : Local)
    (index : Nat) (c : OpenedCtor) : Term :=
  let recursive := ((c.fields.zip c.ctor.recursive).filter Prod.snd).map Prod.fst
  let hypotheses := recursive.zipIdx.map fun (field, i) =>
    Local.new (next + i) (hypothesisName field.name) (motive.term.app field.term)
  let ctorApp := (Term.ctor spec.name index c.ctor.name spec.levels).apply
    ((params ++ c.fields).map Local.term)
  (motive.term.app ctorApp).pis (c.fields ++ hypotheses)

/-- The type of the recursor. The hypotheses are numbered from `next` on. -/
def recursorType (spec : InductiveSpec) (next : Nat) (params : List Local) (elim : Option Name)
    (ctors : List OpenedCtor) : Term :=
  let selfApp := spec.selfApp params
  let motiveSort : Term := .sort ((elim.map Level.param).getD .zero)
  let motive := Local.new next ⟨"motive"⟩ (.pi ⟨"t"⟩ false selfApp motiveSort)
  let major := Local.new (next + 1) ⟨"t"⟩ selfApp
  let minors := ctors.zipIdx.map fun (c, i) =>
    Local.new (next + 2 + i) ⟨c.ctor.name.lastComponent⟩
      (spec.minorType (next + 2 + ctors.length) params motive i c)
  (motive.term.app major.term).pis (params ++ [motive] ++ minors ++ [major])

/-- The names to be declared: valid, not declared before, and no two constructors alike. -/
def checkNames (env : Env) (spec : InductiveSpec) : Fueled TypeError Unit := do
  env.checkFresh spec.name spec.type
  env.checkFresh spec.recursor spec.type
  spec.ctors.forM fun (c, type) => do
    env.checkFresh c type
    if 1 < (spec.ctors.filter (·.1 == c)).length then Env.reject {} type (.alreadyDeclared c)

end InductiveSpec

/-- Checks an inductive type and adds it with its constructors and its recursor. -/
def Env.addInductive (env : Env) (fuel next : Nat) (spec : InductiveSpec) : Fueled TypeError Env := do
  spec.checkNames env
  let _ ← env.inferSort spec.levelParams fuel next {} spec.type
  let (params, target) ← spec.openParams env fuel spec.numParams next spec.type
  match ← Fueled.ofOption (env.whnf fuel target) with
  | .sort sort =>
    -- The types of constructors may mention the type that is being declared.
    let withType := env.insert spec.decl
    let next := next + spec.numParams
    let opened ← spec.ctors.mapM (spec.checkCtor withType fuel next params sort)
    let next := next + (opened.flatMap (·.fields)).length
    let elim := spec.elimLevel sort
    let type := spec.recursorType next params elim opened
    let ctors := opened.map (·.ctor)
    let info : InductiveType :=
      ⟨spec.name, spec.levelParams, spec.numParams, sort, ctors, spec.recursor, elim⟩
    let recursorParams := elim.toList ++ spec.levelParams
    let _ ← (withType.insertInductive info).inferSort recursorParams fuel next {} type
    let withCtors := ctors.zipIdx.foldl
      (fun env (c, i) => env.insert ⟨c.name, spec.levelParams, c.type, .constructor spec.name i⟩)
      withType
    let withRecursor :=
      withCtors.insert ⟨spec.recursor, recursorParams, type, .recursor spec.name⟩
    return withRecursor.insertInductive info
  | _ => Env.reject {} spec.type (.malformed (.notASort spec.name))

end ProofAssistant
