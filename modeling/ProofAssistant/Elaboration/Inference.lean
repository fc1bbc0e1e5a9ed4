import ProofAssistant.Elaboration.Error
import ProofAssistant.Typing

/-!
# Types of unfinished terms

`Env.typeOf` gives the type of a term in which holes and universe metavariables may be left. It reads
the type off and checks no argument: a finished term is checked by the kernel in the end.

`next` is the least number that no identity has, as in the kernel.
-/

namespace ProofAssistant

namespace Env

/-- The weak head normal form of a term as far as it is known. -/
def whnfOf (env : Env) (μ : Metas) (fuel : Nat) (m : Term) : Option Term :=
  env.whnf fuel (μ.instantiate m)

/-- The type is a class applied to arguments. -/
def isClassType (env : Env) (μ : Metas) (type : Term) : Bool :=
  match (μ.instantiate type).head with
  | .const c _ => env.isClass c
  | _ => false

mutual

/-- The type of a term, read off its form. -/
def typeOf (env : Env) (s : Supply) (μ : Metas) :
    (fuel next : Nat) → Context → Term → Fueled ElabError Term
  | 0, _, _, _ => .exhausted
  | fuel + 1, next, Γ, m =>
    match m with
    | .var _ => throw ⟨.cannotInferType (.term m), Γ⟩
    | .sort l => return .sort (.succ l)
    | .free x =>
      match Γ.get? x with
      | some h => return h.type
      | none => throw ⟨.cannotInferType (.term m), Γ⟩
    | .const c levels =>
      match env.get? c with
      | some d => return d.type.instantiateLevelParams d.levelParams levels
      | none => throw ⟨.missingDeclaration c, Γ⟩
    | .ctor family index name levels =>
      match (env.inductive? family).bind fun t => (t.ctors[index]?).map (t, ·) with
      | some (t, c) => return c.type.instantiateLevelParams t.levelParams levels
      | none => throw ⟨.missingDeclaration name, Γ⟩
    | .app f a => do
      let type ← Fueled.ofOption (env.whnfOf μ fuel (← env.typeOf s μ fuel next Γ f))
      match type with
      | .pi _ _ _ b => return b.instantiate a
      | _ => throw ⟨.functionExpected f type, Γ⟩
    | .lam x t b => do
      let h := Local.new next x t
      let type ← env.typeOf s μ fuel (next + 1) (Γ.push h) (b.instantiate h.term)
      return .pi x false t (type.close [h.id] 0)
    | .pi x _ t b => do
      let l ← env.sortOf s μ fuel next Γ t
      let h := Local.new next x t
      let l' ← env.sortOf s μ fuel (next + 1) (Γ.push h) (b.instantiate h.term)
      return .sort (.imax l l')
    | .hole h _ =>
      match μ.goalOf? s h with
      | some g => return g.closedType
      | none => throw ⟨.cannotInferType (.term m), Γ⟩

/-- The level of the sort that a type lives in, read off its form. -/
def sortOf (env : Env) (s : Supply) (μ : Metas) :
    (fuel next : Nat) → Context → Term → Fueled ElabError Level
  | 0, _, _, _ => .exhausted
  | fuel + 1, next, Γ, m => do
    let type ← Fueled.ofOption (env.whnfOf μ fuel (← env.typeOf s μ fuel next Γ m))
    match type with
    | .sort l => return l
    | _ => throw ⟨.typeExpected m type, Γ⟩

end

end Env

end ProofAssistant
