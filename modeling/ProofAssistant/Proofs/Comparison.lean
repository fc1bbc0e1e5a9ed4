import Mathlib.Tactic.Lemma
import ProofAssistant.Conversion

/-!
# One step of a comparison

Conversion calls itself in many places. `Env.compareWith` is one step of it, with the calls as arguments:
the test of types, bodies and arguments, and what is done when heads or arguments differ. Statements
about conversion are shown for this step first, by the shapes of the two terms (`Term.compare_cases`),
and then by induction on the fuel. The first one is that conversion is symmetric (`Env.isDefEq_comm`).
-/

namespace ProofAssistant

namespace Term

/-- An abstraction. -/
def IsLam : Term → Prop
  | .lam .. => True
  | _ => False

/-- The term is no sort and no product, or the other one is of another shape. -/
def BinderApart : Term → Term → Prop
  | .sort _, .sort _ => False
  | .pi .., .pi .. => False
  | _, _ => True

lemma compare_cases {P : Term → Term → Prop} (sorts : ∀ l l', P (.sort l) (.sort l'))
    (products : ∀ x i t m x' i' t' m', P (.pi x i t m) (.pi x' i' t' m'))
    (abstractions : ∀ x t m x' t' m', P (.lam x t m) (.lam x' t' m'))
    (etaLeft : ∀ x t m b, ¬ b.IsLam → P (.lam x t m) b) (etaRight : ∀ a x t m, ¬ a.IsLam → P a (.lam x t m))
    (spines : ∀ a b, ¬ a.IsLam → ¬ b.IsLam → a.BinderApart b → P a b) (a b : Term) : P a b := by
  cases a with
  | lam x t m =>
    cases b with
    | lam x' t' m' => exact abstractions ..
    | _ => exact etaLeft _ _ _ _ id
  | sort l =>
    cases b with
    | sort l' => exact sorts l l'
    | lam x' t' m' => exact etaRight _ _ _ _ id
    | _ => exact spines _ _ id id trivial
  | pi x i t m =>
    cases b with
    | pi x' i' t' m' => exact products ..
    | lam x' t' m' => exact etaRight _ _ _ _ id
    | _ => exact spines _ _ id id trivial
  | _ =>
    cases b with
    | lam x' t' m' => exact etaRight _ _ _ _ id
    | _ => exact spines _ _ id id trivial

end Term

namespace Env

/-- One step of the comparison of weak head normal forms that are not the same. -/
def compareWith (test : Nat → Term → Term → Option Bool) (otherwise : Term → Term → Option Bool)
    (next : Nat) (a b : Term) : Option Bool :=
  let x : Term := .free ⟨next, none⟩
  match a, b with
  | .sort l, .sort l' => some (l.isEquiv l')
  | .pi _ _ t m, .pi _ _ t' m' | .lam _ t m, .lam _ t' m' => do
    if ← test next t t' then test (next + 1) (m.instantiate x) (m'.instantiate x) else some false
  | .lam _ _ m, _ => test (next + 1) (m.instantiate x) (b.app x)
  | _, .lam _ _ m => test (next + 1) (m.instantiate x) (a.app x)
  | _, _ => do
    if ← spinesEq (test next) a b then some true else otherwise a b

section

variable (test : Nat → Term → Term → Option Bool) (otherwise : Term → Term → Option Bool) (next : Nat)

@[simp] lemma compareWith_etaLeft {x : Name} {t m b : Term} (hb : ¬ b.IsLam) :
    compareWith test otherwise next (.lam x t m) b =
      test (next + 1) (m.instantiate (.free ⟨next, none⟩)) (b.app (.free ⟨next, none⟩)) := by
  cases b with
  | lam => exact absurd trivial hb
  | _ => rfl

@[simp] lemma compareWith_etaRight {a : Term} {x : Name} {t m : Term} (ha : ¬ a.IsLam) :
    compareWith test otherwise next a (.lam x t m) =
      test (next + 1) (m.instantiate (.free ⟨next, none⟩)) (a.app (.free ⟨next, none⟩)) := by
  cases a with
  | lam => exact absurd trivial ha
  | _ => rfl

lemma compareWith_spines {a b : Term} (ha : ¬ a.IsLam) (hb : ¬ b.IsLam) (hab : a.BinderApart b) :
    compareWith test otherwise next a b =
      (spinesEq (test next) a b).bind fun same => if same then some true else otherwise a b := by
  cases a with
  | lam => exact absurd trivial ha
  | sort =>
    cases b with
    | lam => exact absurd trivial hb
    | sort => exact hab.elim
    | _ => rfl
  | pi =>
    cases b with
    | lam => exact absurd trivial hb
    | pi => exact hab.elim
    | _ => rfl
  | _ =>
    cases b with
    | lam => exact absurd trivial hb
    | _ => rfl

end

lemma isDefEqCore_succ (env : Env) (fuel next : Nat) (a b : Term) :
    env.isDefEqCore (fuel + 1) next a b =
      if a.alphaEq b then some true
      else compareWith (env.isDefEq fuel) (env.isDefEqDelta fuel next) next a b := by
  rw [isDefEqCore]
  split
  · rfl
  · rfl

/-- What a term unfolds to beside another one, which must not be higher. -/
def unfoldBeside? (env : Env) (a b : Term) : Option Term :=
  if env.headHeight b ≤ env.headHeight a then env.unfoldHead? a else none

/-- Neither of the two terms is unfolded. -/
def Stuck (env : Env) (a b : Term) : Prop :=
  (env.headHeight a = 0 ∧ env.headHeight b = 0) ∨
    ((env.unfoldBeside? a b).isNone ∧ (env.unfoldBeside? b a).isNone)

instance (env : Env) (a b : Term) : Decidable (env.Stuck a b) :=
  inferInstanceAs (Decidable (_ ∨ _))

/-- The weak head normal form of what a term unfolds to, or the term itself. -/
def whnfUnfolded (env : Env) (fuel : Nat) (m : Term) (unfolded : Option Term) : Option Term :=
  (unfolded.map (env.whnfCore fuel)).getD (some m)

lemma isDefEqDelta_succ (env : Env) (fuel next : Nat) (a b : Term) :
    env.isDefEqDelta (fuel + 1) next a b =
      if env.Stuck a b then some false
      else (env.whnfUnfolded fuel a (env.unfoldBeside? a b)).bind fun a' =>
        (env.whnfUnfolded fuel b (env.unfoldBeside? b a)).bind fun b' =>
          env.isDefEqCore fuel next a' b' := by
  rfl

lemma isDefEq_succ (env : Env) (fuel next : Nat) (a b : Term) :
    env.isDefEq (fuel + 1) next a b =
      if a.alphaEq b then some true
      else (env.whnfCore fuel a).bind fun a' => (env.whnfCore fuel b).bind fun b' =>
        env.isDefEqCore fuel next a' b' := by
  rfl

end Env

/-! ## Symmetry -/

lemma Level.isEquiv_comm (a b : Level) : a.isEquiv b = b.isEquiv a := by
  simp only [isEquiv, BEq.comm]

namespace Term

variable {a b : Term}

/-- The same term, up to the names of its binders and whether they are implicit, and to what its constructors
are printed as. -/
inductive Alike : Term → Term → Prop
  | var (i : Nat) : Alike (.var i) (.var i)
  | sort (l : Level) : Alike (.sort l) (.sort l)
  | const (c : Name) (ls : List Level) : Alike (.const c ls) (.const c ls)
  | ctor (t : Name) (i : Nat) (n n' : Name) (ls : List Level) : Alike (.ctor t i n ls) (.ctor t i n' ls)
  | free (x : Id) : Alike (.free x) (.free x)
  | hole (h : Id) (d d' : Bool) : Alike (.hole h d) (.hole h d')
  | app {f f' a a' : Term} : Alike f f' → Alike a a' → Alike (.app f a) (.app f' a')
  | lam {x x' : Name} {t t' b b' : Term} : Alike t t' → Alike b b' → Alike (.lam x t b) (.lam x' t' b')
  | pi {x x' : Name} {i i' : Bool} {t t' b b' : Term} : Alike t t' → Alike b b' →
    Alike (.pi x i t b) (.pi x' i' t' b')

namespace Alike

lemma refl (m : Term) : m.Alike m := by
  induction m with
  | app f a ihf iha => exact .app ihf iha
  | lam x t b iht ihb => exact .lam iht ihb
  | pi x i t b iht ihb => exact .pi iht ihb
  | _ => constructor

lemma symm (h : a.Alike b) : b.Alike a := by
  induction h with
  | app _ _ ihf iha => exact .app ihf iha
  | lam _ _ iht ihb => exact .lam iht ihb
  | pi _ _ iht ihb => exact .pi iht ihb
  | _ => constructor

lemma trans {c : Term} (h : a.Alike b) (h' : b.Alike c) : a.Alike c := by
  induction h generalizing c with
  | app _ _ ihf iha =>
    cases h' with
    | app hf ha => exact .app (ihf hf) (iha ha)
  | lam _ _ iht ihb =>
    cases h' with
    | lam ht hb => exact .lam (iht ht) (ihb hb)
  | pi _ _ iht ihb =>
    cases h' with
    | pi ht hb => exact .pi (iht ht) (ihb hb)
  | _ =>
    cases h'
    constructor

end Alike

/-- `alphaEq` decides whether terms are alike. -/
lemma alphaEq_iff : a.alphaEq b ↔ a.Alike b := by
  constructor
  · intro h
    fun_induction alphaEq a b with
    | case5 f a f' a' ihf iha =>
      rw [Bool.and_eq_true] at h
      exact .app (ihf h.1) (iha h.2)
    | case6 x t b x' t' b' iht ihb =>
      rw [Bool.and_eq_true] at h
      exact .lam (iht h.1) (ihb h.2)
    | case7 x i t b x' i' t' b' iht ihb =>
      rw [Bool.and_eq_true] at h
      exact .pi (iht h.1) (ihb h.2)
    | case10 => cases h
    | _ =>
      simp only [Bool.and_eq_true, beq_iff_eq] at h
      simp only [h]
      constructor
  · intro h
    induction h <;> simp_all [alphaEq]

lemma alphaEq_comm (a b : Term) : a.alphaEq b = b.alphaEq a := by
  rw [Bool.eq_iff_iff, alphaEq_iff, alphaEq_iff]
  exact ⟨.symm, .symm⟩

lemma BinderApart.symm {a b : Term} (h : a.BinderApart b) : b.BinderApart a := by
  cases a <;> cases b <;> exact h

end Term

namespace Env

lemma levelsEquiv_comm (ls ls' : List Level) : levelsEquiv ls ls' = levelsEquiv ls' ls := by
  induction ls generalizing ls' with
  | nil => cases ls' <;> rfl
  | cons l ls ih =>
    cases ls' with
    | nil => rfl
    | cons l' ls' =>
      have htail := ih ls'
      simp only [levelsEquiv] at htail
      simp only [levelsEquiv, List.zip_cons_cons, List.all_cons, l.isEquiv_comm, htail]

lemma headsEq_comm (a b : Term) : headsEq a b = headsEq b a := by
  cases a with
  | const c ls =>
    cases b with
    | const c' ls' => rw [headsEq, headsEq, levelsEquiv_comm, BEq.comm, BEq.comm (a := ls.length)]
    | _ => rfl
  | ctor t i c ls =>
    cases b with
    | ctor t' i' c' ls' => rw [headsEq, headsEq, levelsEquiv_comm, BEq.comm, BEq.comm (a := i)]
    | _ => rfl
  | _ => cases b <;> first | rfl | simp only [headsEq, BEq.comm]

lemma allPairs_comm {test : Term → Term → Option Bool} (h : ∀ a b, test a b = test b a) (as bs : List Term) :
    allPairs test as bs = allPairs test bs as := by
  induction as generalizing bs with
  | nil => cases bs <;> rfl
  | cons a as ih =>
    cases bs with
    | nil => rfl
    | cons b bs => simp only [allPairs, h a b, ih bs]

lemma spinesEq_comm {test : Term → Term → Option Bool} (h : ∀ a b, test a b = test b a) (a b : Term) :
    spinesEq test a b = spinesEq test b a := by
  simp only [spinesEq, headsEq_comm a.head, eq_comm, allPairs_comm h a.args]

lemma compareWith_comm {test : Nat → Term → Term → Option Bool} {otherwise : Term → Term → Option Bool}
    (htest : ∀ next a b, test next a b = test next b a) (hother : ∀ a b, otherwise a b = otherwise b a)
    (next : Nat) (a b : Term) : compareWith test otherwise next a b = compareWith test otherwise next b a := by
  induction a, b using Term.compare_cases with
  | sorts l l' => simp only [compareWith, l.isEquiv_comm]
  | products x i t m x' i' t' m' | abstractions x t m x' t' m' =>
    simp only [compareWith, htest next t t', htest (next + 1) (m.instantiate _)]
  | etaLeft x t m b hb => rw [compareWith_etaLeft _ _ _ hb, compareWith_etaRight _ _ _ hb]
  | etaRight a x t m ha => rw [compareWith_etaLeft _ _ _ ha, compareWith_etaRight _ _ _ ha]
  | spines a b ha hb hab =>
    rw [compareWith_spines _ _ _ ha hb hab, compareWith_spines _ _ _ hb ha hab.symm, spinesEq_comm (htest next), hother]

lemma stuck_comm (env : Env) (a b : Term) : env.Stuck a b ↔ env.Stuck b a := by
  rw [Stuck, Stuck, and_comm, and_comm (a := (env.unfoldBeside? a b).isNone)]

private lemma isDefEq_comm_of_fuel (env : Env) (fuel : Nat) :
    (∀ next a b, env.isDefEq fuel next a b = env.isDefEq fuel next b a) ∧
    (∀ next a b, env.isDefEqCore fuel next a b = env.isDefEqCore fuel next b a) ∧
    (∀ next a b, env.isDefEqDelta fuel next a b = env.isDefEqDelta fuel next b a) := by
  induction fuel with
  | zero => exact ⟨fun _ _ _ => rfl, fun _ _ _ => rfl, fun _ _ _ => rfl⟩
  | succ fuel ih =>
    obtain ⟨ihTest, ihCore, ihDelta⟩ := ih
    refine ⟨fun next a b => ?_, fun next a b => ?_, fun next a b => ?_⟩
    · rw [isDefEq_succ, isDefEq_succ, a.alphaEq_comm, Option.bind_comm]
      simp only [ihCore]
    · rw [isDefEqCore_succ, isDefEqCore_succ, a.alphaEq_comm, compareWith_comm ihTest (ihDelta next)]
    · rw [isDefEqDelta_succ, isDefEqDelta_succ, Option.bind_comm]
      simp only [env.stuck_comm a b, ihCore]

lemma isDefEq_comm (env : Env) (fuel next : Nat) (a b : Term) :
    env.isDefEq fuel next a b = env.isDefEq fuel next b a :=
  (isDefEq_comm_of_fuel env fuel).1 next a b

end Env

end ProofAssistant
