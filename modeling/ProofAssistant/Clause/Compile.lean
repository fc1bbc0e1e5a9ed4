import ProofAssistant.Clause
import ProofAssistant.Elaboration

/-!
# Compiling clauses

Definitions by clauses become applications of recursors. At most one argument may be matched against
constructors, whose fields are then variables. A recursive call must be on a field of the constructor
matched, with the arguments before unchanged; the induction hypothesis takes its place.

For each constructor there is an equation that holds by computation, and so is proved by reflexivity.
-/

namespace ProofAssistant

/-- An equation that a compiled function satisfies. -/
structure DefiningEquation where
  name : Name
  type : Term
  proof : Term
deriving DecidableEq, Inhabited

/-- A function as a term, with its equations. -/
structure Compiled where
  name : Name
  levelParams : List Name
  type : Term
  value : Term
  equations : List DefiningEquation
deriving DecidableEq, Inhabited

/-! ## Recursive calls -/

/-- Which recursive calls are allowed, and what they stand for. -/
structure Calls where
  /-- The function. -/
  function : Id
  /-- The place of the argument matched. -/
  position : Nat
  /-- The arguments before it. -/
  fixed : List Term
  /-- The fields that the function may be called on, with their induction hypotheses. -/
  hypotheses : List (Id × Term)

namespace Calls

/-- A call on the arguments: the induction hypothesis on the further arguments, in which calls have
been replaced. A call that is not allowed is the error. -/
def replaceCall (c : Calls) (args : List (Term × Except Term Term)) : Except Term Term := do
  let call := (Term.free c.function).apply (args.map Prod.fst)
  let given := args.map Prod.fst
  if !((given.zip c.fixed).all fun (a, b) => a.alphaEq b) then throw call
  match given[c.position]? with
  | some (.free x) =>
    match c.hypotheses.lookup x with
    | some h => return h.apply (← (args.drop (c.position + 1)).mapM Prod.snd)
    | none => throw call
  | _ => throw call

/-- `m` on the arguments, with calls replaced by induction hypotheses. Each argument comes with what
becomes of it. -/
def replaceApp (c : Calls) : (m : Term) → (args : List (Term × Except Term Term)) → Except Term Term
  | .app f a, args => c.replaceApp f ((a, c.replaceApp a []) :: args)
  | .free x, args =>
    if x = c.function then c.replaceCall args else return (Term.free x).apply (← args.mapM Prod.snd)
  | .lam x t b, args => do
    let m := Term.lam x (← c.replaceApp t []) (← c.replaceApp b [])
    return m.apply (← args.mapM Prod.snd)
  | .pi x i t b, args => do
    let m := Term.pi x i (← c.replaceApp t []) (← c.replaceApp b [])
    return m.apply (← args.mapM Prod.snd)
  | m, args => return m.apply (← args.mapM Prod.snd)

/-- A term with calls replaced by induction hypotheses. The first call that is not allowed is the
error. -/
def replace (c : Calls) (m : Term) : Except Term Term :=
  c.replaceApp m []

end Calls

namespace ClauseDef

/-- The universe parameters as levels. -/
def levels (d : ClauseDef) : List Level :=
  d.levelParams.map .param

/-- The function as a constant. -/
def constant (d : ClauseDef) : Term :=
  .const d.name d.levels

/-- The place of the argument that is matched against constructors, by the first clause that does. -/
def scrutinee? (d : ClauseDef) : Option Nat :=
  d.clauses.findSome? fun c => c.patterns.findIdx? Pattern.isCtor

/-- Why the patterns of a clause are not admitted, if constructors may stand at `position` only. -/
def patternFault? (position : Option Nat) (c : Clause) : Option CompileError.Cause :=
  c.patterns.zipIdx.findSome? fun (p, i) =>
    match p with
    | .ctor _ args =>
      if some i ≠ position then some .multipleScrutinees
      else if args.any Pattern.isCtor then some .nestedPattern
      else none
    | _ => none

end ClauseDef

/-- A hypothesis under the name that a pattern gives it. -/
def Local.named (x : Local) (p : Pattern) : Local :=
  { x with name := p.binder }

/-- Hypotheses under the names that patterns give them. -/
def Local.namedAll (xs : List Local) (ps : List Pattern) : List Local :=
  xs.zipWith Local.named ps

namespace Compiler

/-- A definition that is being compiled. -/
structure Job where
  elaborator : Elaborator
  definition : ClauseDef
  /-- The type of the function. -/
  type : Term
  /-- The function as a hypothesis, while right-hand sides are elaborated. -/
  self : Local
  /-- The arguments that are matched. -/
  args : List Local
  /-- The type of the result. -/
  result : Term
  /-- The level of that type. -/
  level : Level

/-- Rejects a definition. -/
def reject {α : Type} (d : ClauseDef) (cause : CompileError.Cause) (clause : Option Nat) : FreshM α :=
  throw (.compile ⟨d.name, cause, clause, none, {}⟩)

/-- Rejects a call in a clause. -/
def rejectCall {α : Type} (d : ClauseDef) (clause : Nat) (call : Term) (Γ : Context) : FreshM α :=
  throw (.compile ⟨d.name, .nonStructuralRecursion, some clause, some call, Γ⟩)

/-- The first `arity` arguments of a function type and the type of the result. The error is the number
of arguments there are. -/
def openArguments (E : Elaborator) : (arity : Nat) → Term → FreshM (Except Nat (List Local × Term))
  | 0, type => return .ok ([], type)
  | arity + 1, type => do
    match ← FreshM.ofOption (E.env.whnf E.fuel type) with
    | .pi x _ t b =>
      let h ← FreshM.assume x t
      match ← openArguments E arity (b.instantiate h.term) with
      | .ok (hs, result) => return .ok (h :: hs, result)
      | .error n => return .error (n + 1)
    | _ => return .error 0

/-- The level of the sort of a type without holes. -/
def sortOf (E : Elaborator) (Γ : Context) (m : Term) : FreshM Level :=
  (E.sortOf Γ m).fromStart

namespace Job

/-- The context of a right-hand side: the function itself and the variables of the clause. -/
def clauseContext (J : Job) (xs : List Local) : Context :=
  Context.pushAll ⟨[J.self]⟩ xs

/-- A right-hand side of the expected type. -/
def elaborateRhs (J : Job) (c : Clause) (Γ : Context) (expected : Term) : FreshM Term :=
  return (← J.elaborator.elaborate Γ c.rhs (some expected)).term

/-- The equation of the given number, for all `binders`: the function on `args` is `rhs`. -/
def equation (J : Job) (number : Nat) (binders : List Local) (args : List Term) (rhs type : Term) :
    DefiningEquation :=
  let f := J.definition.constant
  let e : Equation := ⟨J.level, type, f.apply args, rhs.subst [(J.self.id, f)]⟩
  ⟨J.definition.name.extend ("eq_" ++ number.repr), e.term.pis binders, e.refl.abs binders⟩

/-- What has been compiled. -/
def compiled (J : Job) (value : Term) (equations : List DefiningEquation) : Compiled :=
  ⟨J.definition.name, J.definition.levelParams, J.type, value, equations⟩

/-! ## No constructors -/

/-- A single clause without constructors. -/
def compilePlain (J : Job) : FreshM Compiled := do
  let c :: rest := J.definition.clauses | reject J.definition .noClauses none
  if !rest.isEmpty then reject J.definition .unreachableClause (some 1)
  let binders := Local.namedAll J.args c.patterns
  let Γ := J.clauseContext binders
  let rhs ← J.elaborateRhs c Γ J.result
  if rhs.containsFree J.self.id then rejectCall J.definition 0 rhs Γ
  let equation := J.equation 1 binders (J.args.map Local.term) rhs J.result
  return J.compiled (rhs.abs J.args) [equation]

/-! ## One argument matched -/

/-- The constructor that a pattern matches, by its full or last name; none for a pattern that matches
everything. -/
def ctorOf (J : Job) (t : InductiveType) (k : Nat) : Pattern → FreshM (Option Nat)
  | .ctor n args =>
    match t.ctors.findIdx? fun c => c.name == n || c.name.lastComponent == n.text with
    | some i =>
      match t.ctors[i]? with
      | some c =>
        if args.length = c.numFields then return some i
        else reject J.definition (.fieldArity c.name c.numFields args.length) (some k)
      | none => reject J.definition (.wrongConstructor n t.name) (some k)
    | none => reject J.definition (.wrongConstructor n t.name) (some k)
  | _ => return none

/-- The clause for each constructor: the first that matches it. -/
def selectClauses (J : Job) (t : InductiveType) (heads : List (Option Nat)) : FreshM (List Nat) := do
  let selected := t.ctors.zipIdx.map fun (c, i) =>
    (c, heads.findIdx? fun h => h.all (· == i))
  let missing := selected.filterMap fun (c, k) => if k.isNone then some c.name else none
  if !missing.isEmpty then reject J.definition (.nonExhaustiveMatch missing) none
  let selected := selected.filterMap Prod.snd
  match (List.range heads.length).find? (!selected.contains ·) with
  | some k => reject J.definition .unreachableClause (some k)
  | none => return selected

/-- The arguments around the one matched. -/
structure Split where
  before : List Local
  major : Local
  after : List Local

/-- The result as it depends on the argument matched: a product over the arguments after it. -/
def Split.statement (J : Job) (x : Split) : Term :=
  J.result.pis x.after

/-- The place in the recursor for one constructor, and its equation, by the clause of number `k`. -/
def compileCase (J : Job) (x : Split) (T : FamilyInstance) (index : Nat) (c : Constructor) (k : Nat)
    (clause : Clause) : FreshM (Term × DefiningEquation) := do
  let E := J.elaborator
  let position := x.before.length
  let before := Local.namedAll x.before clause.patterns
  let fieldPatterns :=
    match clause.patterns[position]? with
    | some (.ctor _ args) => some args
    | _ => none
  let fieldsType ← FreshM.ofOption (E.env.fieldsType E.fuel T c)
  let (fields, _) ← Elaborator.openFields (fun n => (Elaborator.fieldName n).inaccessible)
    fieldsType.numBinders ((fieldPatterns.getD []).map Pattern.binder) fieldsType
  let recursive := c.recursiveFields fields
  let (ihs, _) ← Elaborator.openHypotheses
    (fun m => (x.statement J).subst [(x.major.id, m)]) false [] recursive
  let constructed := T.construct index c (fields.map Local.term)
  let afterPatterns := clause.patterns.drop (position + 1)
  let (after, values) ← Elaborator.replaceLocals [(x.major.id, constructed)]
    (Local.namedAll x.after afterPatterns)
  let expected := J.result.subst values
  let Γ := J.clauseContext (before ++ fields ++ after)
  let rhs ←
    if fieldPatterns.isSome then J.elaborateRhs clause Γ expected
    else do
      let whole := Local.namedAll (x.major :: x.after) (clause.patterns.drop position)
      let rhs ← J.elaborateRhs clause (J.clauseContext (before ++ whole)) J.result
      pure (rhs.subst values)
  let calls : Calls :=
    ⟨J.self.id, position, before.map Local.term,
      (recursive.map Local.id).zip (ihs.map Local.term)⟩
  match calls.replace rhs with
  | .error call => rejectCall J.definition k call Γ
  | .ok minor =>
    let args := before.map Local.term ++ [constructed] ++ after.map Local.term
    return (minor.abs (fields ++ ihs ++ after),
      J.equation (index + 1) (before ++ fields ++ after) args rhs expected)

/-- The places in the recursor, and the equations, for the constructors from the `index`-th on. -/
def compileCases (J : Job) (x : Split) (T : FamilyInstance) :
    (index : Nat) → List (Constructor × Nat) → FreshM (List Term × List DefiningEquation)
  | _, [] => return ([], [])
  | index, (c, k) :: rest => do
    let some clause := J.definition.clauses[k]? | reject J.definition .noClauses none
    let (minor, equation) ← J.compileCase x T index c k clause
    let (minors, equations) ← J.compileCases x T (index + 1) rest
    return (minor :: minors, equation :: equations)

/-- Clauses that match one argument against constructors. -/
def compileMatch (J : Job) (position : Nat) (x : Split) : FreshM Compiled := do
  let E := J.elaborator
  let d := J.definition
  let some T ← FreshM.ofOption (E.env.familyOf? {} E.fuel x.major.type)
    | reject d (.notInductive x.major.type) none
  let heads ← d.clauses.zipIdx.mapM fun (c, k) =>
    J.ctorOf T.family k (c.patterns.getD position .wildcard)
  let selected ← J.selectClauses T.family heads
  let level ← sortOf E ⟨J.args⟩ (x.statement J)
  let some levels := T.recursorLevels? level | reject d (.largeElimination T.family.name) none
  let (minors, equations) ← J.compileCases x T 0 (T.family.ctors.zip selected)
  let value := T.eliminate levels ((x.statement J).abs [x.major]) minors x.major.term
    (x.after.map Local.term)
  return J.compiled (value.abs J.args) equations

end Job

/-- Compiles a definition; nothing is added to the environment. -/
def compile (E : Elaborator) (d : ClauseDef) : FreshM Compiled := do
  let type := (← E.elaborateType {} d.type).term
  let self ← FreshM.assume d.name type
  let first :: _ := d.clauses | reject d .noClauses none
  let arity := first.patterns.length
  if let some k := d.clauses.findIdx? (·.patterns.length != arity) then
    reject d (.patternArity arity ((d.clauses[k]?.map (·.patterns.length)).getD 0)) (some k)
  match ← openArguments E arity type with
  | .error n => reject d (.patternArity n arity) none
  | .ok (args, result) =>
    if (E.env.get? ⟨"Eq"⟩).isNone then reject d (.missingDeclaration ⟨"Eq"⟩) none
    let level ← sortOf E ⟨args⟩ result
    let position := d.scrutinee?
    for (c, k) in d.clauses.zipIdx do
      if let some cause := ClauseDef.patternFault? position c then reject d cause (some k)
    let J : Job := ⟨E, d, type, self, args, result, level⟩
    match position with
    | none => J.compilePlain
    | some position =>
      match args.drop position with
      | major :: after => J.compileMatch position ⟨args.take position, major, after⟩
      | [] => J.compilePlain

end Compiler

end ProofAssistant
