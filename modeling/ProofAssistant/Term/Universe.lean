import ProofAssistant.Term

/-!
# Universe levels in terms

Levels occur in sorts and as arguments of constants and constructors. A traversal of the levels of a
term leaves holes alone.
-/

namespace ProofAssistant

namespace Term

/-- Replaces every level. -/
def mapLevels (f : Level → Level) : Term → Term
  | .sort l => .sort (f l)
  | .const c ls => .const c (ls.map f)
  | .ctor t i c ls => .ctor t i c (ls.map f)
  | .app g a => .app (g.mapLevels f) (a.mapLevels f)
  | .lam x t b => .lam x (t.mapLevels f) (b.mapLevels f)
  | .pi x i t b => .pi x i (t.mapLevels f) (b.mapLevels f)
  | m => m

/-- Some level satisfies `p`. -/
def anyLevel (p : Level → Bool) : Term → Bool
  | .sort l => p l
  | .const _ ls | .ctor _ _ _ ls => ls.any p
  | .app f a => f.anyLevel p || a.anyLevel p
  | .lam _ t b | .pi _ _ t b => t.anyLevel p || b.anyLevel p
  | .var _ | .free _ | .hole .. => false

/-- Some level has a metavariable. -/
def hasLevelMVar (m : Term) : Bool :=
  m.anyLevel Level.hasMVar

/-- Replaces universe parameters by levels. -/
def instantiateLevelParams (params : List Name) (levels : List Level) (m : Term) : Term :=
  if params.isEmpty then m else m.mapLevels (·.instantiateParams params levels)

end Term

end ProofAssistant
