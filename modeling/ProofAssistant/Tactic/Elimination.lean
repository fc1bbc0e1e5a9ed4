import ProofAssistant.Tactic.Basic

/-!
# Tactics on inductive types

A target of an inductive type with one constructor is split into the fields of that constructor. A
hypothesis of an inductive type is taken apart by the recursor: one goal for each constructor, with its
fields and, for induction, with the induction hypotheses.
-/

namespace ProofAssistant

/-- An inductive type at given universes and parameters. -/
structure FamilyInstance where
  family : InductiveType
  levels : List Level
  params : List Term

/-- Those of the fields of a constructor that are of the inductive type itself. -/
def Constructor.recursiveFields {α : Type} (c : Constructor) (fields : List α) : List α :=
  ((fields.zip c.recursive).filter Prod.snd).map Prod.fst

namespace FamilyInstance

/-- A constructor of the type on its fields. -/
def construct (T : FamilyInstance) (index : Nat) (c : Constructor) (fields : List Term) : Term :=
  (Term.ctor T.family.name index c.name T.levels).apply (T.params ++ fields)

/-- The levels of the recursor into a sort of the given level; none if only propositions may be
proved by recursion and the level is not that of propositions. -/
def recursorLevels? (T : FamilyInstance) (l : Level) : Option (List Level) :=
  match T.family.elimLevel with
  | some _ => some (l :: T.levels)
  | none => if l.isZero then some T.levels else none

/-- The recursor on all its arguments. -/
def eliminate (T : FamilyInstance) (levels : List Level) (motive : Term) (minors : List Term)
    (major : Term) (further : List Term) : Term :=
  (Term.const T.family.recursor levels).apply
    (T.params ++ [motive] ++ minors ++ [major] ++ further)

end FamilyInstance

/-- The number of leading binders of a product. -/
def Term.numBinders : Term → Nat
  | .pi _ _ _ b => b.numBinders + 1
  | _ => 0

namespace Env

/-- The inductive type that a type reduces to. -/
def familyOf? (env : Env) (μ : Metas) (fuel : Nat) (type : Term) : Option (Option FamilyInstance) := do
  let type ← env.whnfOf μ fuel type
  match type.head with
  | .const c levels =>
    match env.inductive? c with
    | some t => return if type.args.length = t.numParams then some ⟨t, levels, type.args⟩ else none
    | none => return none
  | _ => return none

/-- A product on arguments; an argument for which there is no binder is passed over. -/
def applyType (env : Env) (fuel : Nat) : (args : List Term) → (type : Term) → Option Term
  | [], type => some type
  | a :: as, type => do
    match ← env.whnf fuel type with
    | .pi _ _ _ b => env.applyType fuel as (b.instantiate a)
    | _ => env.applyType fuel as type

/-- The type of a constructor after the parameters: the product over its fields. -/
def fieldsType (env : Env) (fuel : Nat) (T : FamilyInstance) (c : Constructor) : Option Term :=
  env.applyType fuel T.params (c.type.instantiateLevelParams T.family.levelParams T.levels)

end Env

namespace Elaborator

/-- The inductive type that a type reduces to. -/
def familyOf? (E : Elaborator) (type : Term) : ElabM (Option FamilyInstance) := do
  FreshM.ofOption (E.env.familyOf? (← get) E.fuel type)

/-! ## Splitting the target -/

/-- A term on a new goal for each of `count` binders of its type; none if there are not so many. -/
def openGoals (Γ : Context) : (count : Nat) → (m type : Term) → FreshM (Option (Term × List Goal))
  | 0, m, _ => return some (m, [])
  | count + 1, m, .pi _ _ t b => do
    let g ← FreshM.declare Γ t
    match ← openGoals Γ count (m.app g.hole) (b.instantiate g.hole) with
    | some (m, goals) => return some (m, g :: goals)
    | none => return none
  | _ + 1, _, _ => return none

/-- Applies the only constructor of the target; its fields become goals. -/
def split (E : Elaborator) (goals : List Goal) : ElabM (List Goal) := do
  let (g, rest) ← mainGoal goals
  let some T ← E.familyOf? g.target | failTactic g (.wrongGoalShape .singleConstructor)
  let [c] := T.family.ctors | failTactic g (.wrongGoalShape .singleConstructor)
  let fieldsType ← FreshM.ofOption (E.env.fieldsType E.fuel T c)
  let some (m, new) ← openGoals g.context c.numFields (T.construct 0 c []) fieldsType
    | failTactic g (.wrongGoalShape .singleConstructor)
  modify (·.assignGoal g m)
  prune (new ++ rest)

/-! ## Case analysis and induction -/

/-- The hypotheses among `hs` that depend on the hypothesis `x`, directly or through others of
them. -/
def dependents : (x : List Id) → (hs : List Local) → List Local
  | _, [] => []
  | xs, h :: hs =>
    if xs.any (h.type.containsFree ·) then h :: dependents (h.id :: xs) hs else dependents xs hs

/-- The name of a field that is given none: that of its binder, or `a` if that has none. -/
def fieldName (binder : Name) : Name :=
  if binder.isAnonymous then ⟨"a"⟩ else binder

/-- New hypotheses for `count` binders of a product. They take the first of the names, and after these
the ones that `name` makes of their binders. The names that are left are given back. -/
def openFields (name : Name → Name) :
    (count : Nat) → (names : List Name) → Term → FreshM (List Local × List Name)
  | count + 1, names, .pi x _ t b => do
    let h ← FreshM.assume (names.head?.getD (name x)) t
    let (hs, names) ← openFields name count names.tail (b.instantiate h.term)
    return (h :: hs, names)
  | _, names, _ => return ([], names)

/-- An induction hypothesis for each of the fields, whose type `motive` gives. They take the first of
the names; after these, `ih` if there is only one, or else the name of their field with `_ih`. -/
def openHypotheses (motive : Term → Term) (single : Bool) :
    (names : List Name) → (fields : List Local) → FreshM (List Local × List Name)
  | names, [] => return ([], names)
  | names, x :: xs => do
    let name := names.head?.getD (if single then ⟨"ih"⟩ else ⟨x.name.text ++ "_ih"⟩)
    let h ← FreshM.assume name (motive x.term)
    let (hs, names) ← openHypotheses motive single names.tail xs
    return (h :: hs, names)

/-- New hypotheses for old ones, whose types are changed by `values` and by the change of the
hypotheses before them; with the change of all of them. -/
def replaceLocals : (values : List (Id × Term)) → (hs : List Local) →
    FreshM (List Local × List (Id × Term))
  | values, [] => return ([], values)
  | values, h :: hs => do
    let h' ← FreshM.assume h.name (h.type.subst values)
    let (hs', values) ← replaceLocals (values ++ [(h.id, h'.term)]) hs
    return (h' :: hs', values)

/-- What is eliminated: the hypothesis `major` of the goal, together with the hypotheses that depend on
it. -/
structure Elimination where
  goal : Goal
  major : Local
  dependents : List Local
  /-- Uses induction hypotheses. -/
  induction : Bool

namespace Elimination

/-- The target as it depends on the hypothesis and its dependents. -/
def statement (e : Elimination) : Term :=
  e.goal.target.pis e.dependents

/-- The hypotheses that are kept. -/
def kept (e : Elimination) : Context :=
  let gone := e.major.id :: e.dependents.map Local.id
  ⟨e.goal.context.locals.filter (!gone.contains ·.id)⟩

end Elimination

/-- The goal for one constructor, its place in the recursor, and the names that are left. -/
def eliminateCase (E : Elaborator) (e : Elimination) (T : FamilyInstance) (index : Nat)
    (c : Constructor) (names : List Name) : FreshM (Goal × Term × List Name) := do
  let fieldsType ← FreshM.ofOption (E.env.fieldsType E.fuel T c)
  let (fields, names) ← openFields fieldName fieldsType.numBinders names fieldsType
  let recursive := c.recursiveFields fields
  let single := (c.recursive.filter (·)).length == 1
  let (ihs, left) ← openHypotheses (fun m => e.statement.subst [(e.major.id, m)]) single
    (if e.induction then names else []) recursive
  let names := if e.induction then left else names
  let (deps, values) ←
    replaceLocals [(e.major.id, T.construct index c (fields.map Local.term))] e.dependents
  let shown := fields ++ (if e.induction then ihs else []) ++ deps
  let g ← FreshM.declare (e.kept.pushAll shown) (e.goal.target.subst values)
  return (g, g.hole.abs (fields ++ ihs ++ deps), names)

/-- The goals for the constructors from the `index`-th on, and their places in the recursor. -/
def eliminateCases (E : Elaborator) (e : Elimination) (T : FamilyInstance) :
    (index : Nat) → (names : List Name) → List Constructor → FreshM (List Goal × List Term)
  | _, _, [] => return ([], [])
  | index, names, c :: cs => do
    let (g, minor, names) ← E.eliminateCase e T index c names
    let (gs, minors) ← E.eliminateCases e T (index + 1) names cs
    return (g :: gs, minor :: minors)

/-- Takes a hypothesis apart. Hypotheses that depend on it are taken along, and appear in every new
goal. -/
def eliminate (E : Elaborator) (induction : Bool) (hypothesis : Name) (names : List Name)
    (goals : List Goal) : ElabM (List Goal) := do
  let (g, rest) ← mainGoal goals
  let some x := g.context.find? hypothesis | failTactic g (.unknownHypothesis hypothesis)
  let some T ← E.familyOf? x.type | failTactic g (.notInductive x.type)
  let some position := g.context.position? x.id | failTactic g (.unknownHypothesis hypothesis)
  let e : Elimination :=
    ⟨g, x, dependents [x.id] (g.context.locals.drop (position + 1)), induction⟩
  let level := (← get).instantiateLevel (← E.sortOf g.context e.statement)
  let some levels := T.recursorLevels? level | failTactic g (.largeElimination g.target)
  let (new, minors) ← E.eliminateCases e T 0 names T.family.ctors
  modify (·.assignGoal g
    (T.eliminate levels (e.statement.abs [x]) minors x.term (e.dependents.map Local.term)))
  prune (new ++ rest)

end Elaborator

end ProofAssistant
