import ProofAssistant.Proofs.Foundation
import ProofAssistant.Proofs.LevelValue

/-!
# Convertibility

`Env.Conv` is the least equivalence and congruence that contains the contractions, η and the equality of levels under
every valuation. It ignores names and implicitness of binders, what constructors are printed as and whether a hole is
deferred. Replacements preserve it (`Env.Conv.replace_congr`).

Reduction consists of contractions, and terms that the conversion test accepts are convertible
(`Env.conversion_sound`).
-/

namespace ProofAssistant

open Term InductiveSpec List Option Nat

namespace Env

variable {m m' b b' : Term} {k k' next fuel : Nat} {test : Nat → Term → Term → Option Bool}

/-- Convertible terms. -/
inductive Conv (env : Env) : Term → Term → Prop
  | refl (m : Term) : Conv env m m
  | symm {m m' : Term} : Conv env m m' → Conv env m' m
  | trans {m m' m'' : Term} : Conv env m m' → Conv env m' m'' → Conv env m m''
  | contract {m m' : Term} : env.Contracts m m' → Conv env m m'
  | eta (x : Name) (t f : Term) : Conv env (.lam x t (.app f.shift (.var 0))) f
  | sort {l l' : Level} : l.Same l' → Conv env (.sort l) (.sort l')
  | const {c : Name} {ls ls' : List Level} : List.Forall₂ Level.Same ls ls' →
    Conv env (.const c ls) (.const c ls')
  | ctor {t n n' : Name} {i : Nat} {ls ls' : List Level} : List.Forall₂ Level.Same ls ls' →
    Conv env (.ctor t i n ls) (.ctor t i n' ls')
  | hole (h : Id) (d d' : Bool) : Conv env (.hole h d) (.hole h d')
  | app {f f' a a' : Term} : Conv env f f' → Conv env a a' → Conv env (.app f a) (.app f' a')
  | lam {x x' : Name} {t t' b b' : Term} : Conv env t t' → Conv env b b' →
    Conv env (.lam x t b) (.lam x' t' b')
  | pi {x x' : Name} {i i' : Bool} {t t' b b' : Term} : Conv env t t' → Conv env b b' →
    Conv env (.pi x i t b) (.pi x' i' t' b')

variable {env : Env}

lemma Conv.apply (h : env.Conv m m') {as as' : List Term} (has : List.Forall₂ env.Conv as as') :
    env.Conv (m.apply as) (m'.apply as') := by
  induction has generalizing m m' with
  | nil => exact h
  | cons ha _ ih => exact ih (h.app ha)

lemma Conv.apply_left (h : env.Conv m m') (as : List Term) : env.Conv (m.apply as) (m'.apply as) :=
  h.apply (forall₂_same.mpr fun a _ => .refl a)

lemma Conv.of_step (h : env.Step m m') : env.Conv m m' := by
  induction h with
  | contract h => exact .contract h
  | fn a _ ih => exact .app ih (.refl a)
  | arg f _ ih => exact .app (.refl f) ih

lemma Conv.of_steps (h : env.Steps m m') : env.Conv m m' := by
  induction h with
  | refl => exact .refl _
  | tail _ h ih => exact ih.trans (.of_step h)

lemma same_refl (ls : List Level) : List.Forall₂ Level.Same ls ls :=
  forall₂_same.mpr fun l _ => .refl l

lemma Conv.of_alphaEq (h : m.alphaEq m') : env.Conv m m' := by
  have halike := alphaEq_iff.mp h
  clear h
  induction halike with
  | ctor t i n n' ls => exact .ctor (same_refl ls)
  | hole h d d' => exact .hole h d d'
  | app _ _ ihf iha => exact .app ihf iha
  | lam _ _ iht ihb => exact .lam iht ihb
  | pi _ _ iht ihb => exact .pi iht ihb
  | _ => exact .refl _

/-! ## Replacements -/

lemma Contracts.replace (henv : env.Admits noFree) (h : env.Contracts m m') (s : Replacement) :
    env.Contracts (m.replace s) (m'.replace s) := by
  cases h with
  | beta x t b a =>
    rw [Term.replace_instantiate]
    exact .beta x _ _ _
  | @delta c ls d value height hget hkind hlen =>
    have hclosed := henv c ls d value height hget hkind hlen trivial
    rw [hclosed.replace_eq_self fun _ hx => hx.elim]
    exact .delta hget hkind hlen
  | iota hrec hk hargs hparams hfields hminor =>
    simp only [Term.replace, Term.replace_apply, List.map_append,
      Constructor.map_calls (g := (·.replace s)) fun _ _ => rfl]
    exact .iota hrec hk (by simpa using hargs) (by simpa using hparams) (by simpa using hfields)
      (by simp [hminor])

lemma Conv.replace (henv : env.Admits noFree) (h : env.Conv m m') (s : Replacement) :
    env.Conv (m.replace s) (m'.replace s) := by
  induction h generalizing s with
  | refl m => exact .refl _
  | symm _ ih => exact (ih s).symm
  | trans _ _ ih ih' => exact (ih s).trans (ih' s)
  | contract h => exact .contract (h.replace henv s)
  | eta x t f =>
    simp only [Term.replace, Term.replace_shift]
    exact .eta x _ _
  | sort h => exact .sort h
  | const h => exact .const h
  | ctor h => exact .ctor h
  | hole h d d' => exact .hole h d d'
  | app _ _ ihf iha => exact .app (ihf s) (iha s)
  | lam _ _ iht ihb => exact .lam (iht s) (ihb s.up)
  | pi _ _ iht ihb => exact .pi (iht s) (ihb s.up)

section

variable (henv : env.Admits noFree)
include henv

lemma Conv.rename (h : env.Conv m m') (ξ : Nat → Nat) :
    env.Conv (m.rename ξ) (m'.rename ξ) := by
  rw [rename_eq_replace, rename_eq_replace]
  exact h.replace henv _

/-- Replacements by convertible terms, for what occurs in a term, lead to convertible terms. -/
lemma Conv.replace_congr {S : Scope} (hm : m.In S k) {s s' : Replacement}
    (hvar : ∀ i < k, env.Conv (s.var i) (s'.var i)) (hfree : ∀ x, S.free x → env.Conv (s.free x) (s'.free x)) :
    env.Conv (m.replace s) (m.replace s') := by
  have hup : ∀ {k : Nat} {s s' : Replacement}, (∀ i < k, env.Conv (s.var i) (s'.var i)) →
      ∀ i < k + 1, env.Conv (s.up.var i) (s'.up.var i) := by
    intro k s s' hvar i hi
    cases i with
    | zero => exact .refl _
    | succ i => exact (hvar i (by omega)).rename henv _
  induction m generalizing k s s' with
  | var i => exact hvar i hm
  | free x => exact hfree x hm
  | app f a ihf iha => exact .app (ihf hm.1 hvar hfree) (iha hm.2 hvar hfree)
  | lam x t b iht ihb =>
    exact .lam (iht hm.1 hvar hfree) (ihb hm.2 (hup hvar) fun y hy => (hfree y hy).rename henv _)
  | pi x i t b iht ihb =>
    exact .pi (iht hm.1 hvar hfree) (ihb hm.2 (hup hvar) fun y hy => (hfree y hy).rename henv _)
  | _ => exact .refl _

lemma Conv.instantiate {a a' : Term} (hb : env.Conv b b')
    (ha : env.Conv a a') : env.Conv (b.instantiate a) (b'.instantiate a') := by
  rw [instantiate_eq_replace, instantiate_eq_replace]
  refine (hb.replace henv _).trans
    (.replace_congr henv (in_looseBound (Nat.le_refl _)) (fun i _ => ?_) fun x _ => .refl (.free x))
  cases i with
  | zero => exact ha
  | succ i => exact .refl (.var i)

/-- Bodies that are convertible when opened with a hypothesis that neither mentions. -/
lemma Conv.of_instantiate_free {S : Scope} {x : Id} (hb : b.In S k)
    (hb' : b'.In S k') (hx : ¬ S.free x) (h : env.Conv (b.instantiate (.free x)) (b'.instantiate (.free x))) :
    env.Conv b b' := by
  have h' := h.replace henv (.abstracted x)
  rwa [replace_abstracted hb hx, replace_abstracted hb' hx] at h'

end

/-! ## The conversion test -/

/-- Hypotheses with numbers below `next`, and declared constants and constructors with the right number of levels. -/
def arityScope (env : Env) (next : Nat) : Scope where
  free x := x.number < next
  const c ls := ∃ d, env.get? c = some d ∧ d.levelParams.length = ls.length
  ctor n _ ls := ∃ t, env.inductive? n = some t ∧ t.levelParams.length = ls.length

lemma arityScope_le (env : Env) {next' : Nat} (h : next ≤ next') :
    (env.arityScope next).Le (env.arityScope next') where
  free _ hx := Nat.lt_of_lt_of_le hx h

/-- Accepted terms have the right number of levels everywhere. -/
lemma scope_le_arityScope (env : Env) (ps : List Name) {P : Id → Prop} (hP : ∀ x, P x → x.number < next) :
    (env.scope ps P).Le (env.arityScope next) where
  free := hP
  level _ _ := trivial
  const := fun _ _ ⟨hd, _⟩ => hd
  ctor := fun _ _ _ ⟨⟨t, ht, _, hlen⟩, _⟩ => ⟨t, ht, hlen⟩
  hole _ _ := trivial

lemma Scoped.admits_arityScope (h : env.Scoped) (next : Nat) : env.Admits (env.arityScope next) := by
  refine admits_of_forall fun d hd m hm ls => ?_
  have hscope : m.In (env.arityScope next) 0 :=
    (h.terms d hd m hm).widen (env.scope_le_arityScope _ fun _ hx => hx.elim)
  rw [instantiateLevelParams_eq_mapLevels]
  refine hscope.mapLevels (fun _ hx => hx) (fun _ _ => trivial) (fun _ _ => trivial) ?_ ?_
  · rintro c ls' ⟨d', hd', hlen⟩
    exact ⟨d', hd', by simpa using hlen⟩
  · rintro n i ls' ⟨t, ht, hlen⟩
    exact ⟨t, ht, by simpa using hlen⟩

/-- Lists of the same length whose pairs pass a test are related by what the test shows. -/
lemma forall₂_of_allPairs {test : Term → Term → Option Bool} {R : Term → Term → Prop}
    {as bs : List Term} (htest : ∀ a ∈ as, ∀ b ∈ bs, test a b = some true → R a b)
    (h : allPairs test as bs = some true) (hlen : as.length = bs.length) : List.Forall₂ R as bs := by
  induction as generalizing bs with
  | nil =>
    obtain rfl := length_eq_zero_iff.mp hlen.symm
    exact .nil
  | cons a as ih =>
    cases bs with
    | nil => simp at hlen
    | cons b bs =>
      obtain ⟨answer, hab, h⟩ := bind_eq_some_iff.mp h
      cases answer with
      | false => simp at h
      | true =>
        refine .cons (htest a mem_cons_self b mem_cons_self hab) (ih ?_ h (by simpa using hlen))
        exact fun x hx y hy => htest x (mem_cons_of_mem _ hx) y (mem_cons_of_mem _ hy)

lemma same_of_levelsEquiv {ls ls' : List Level} (h : levelsEquiv ls ls') (hlen : ls.length = ls'.length) :
    List.Forall₂ Level.Same ls ls' := by
  induction ls generalizing ls' with
  | nil =>
    obtain rfl := length_eq_zero_iff.mp hlen.symm
    exact .nil
  | cons l ls ih =>
    cases ls' with
    | nil => simp at hlen
    | cons l' ls' =>
      simp only [levelsEquiv, zip_cons_cons, all_cons, Bool.and_eq_true] at h
      exact .cons (Level.value_eq_of_isEquiv h.1) (ih h.2 (by simpa using hlen))

lemma conv_of_headsEq (hm : m.In (env.arityScope next) k) (hm' : m'.In (env.arityScope next) k') (h : headsEq m m') :
    env.Conv m m' := by
  unfold headsEq at h
  split at h
  · obtain rfl := by simpa using h
    exact .refl _
  · rename_i c ls c' ls'
    simp only [Bool.and_eq_true, beq_iff_eq] at h
    obtain ⟨⟨rfl, hlen⟩, hls⟩ := h
    exact .const (same_of_levelsEquiv hls hlen)
  · rename_i t i n ls t' i' n' ls'
    simp only [Bool.and_eq_true, beq_iff_eq] at h
    obtain ⟨⟨rfl, rfl⟩, hls⟩ := h
    -- The test compares the levels as far as both lists go; both are as long as the declaration says.
    obtain ⟨T, hT, hlen⟩ := hm
    obtain ⟨T', hT', hlen'⟩ := hm'
    obtain rfl : T = T' := some.inj (hT.symm.trans hT')
    exact .ctor (same_of_levelsEquiv hls (hlen.symm.trans hlen'))
  · obtain rfl := by simpa using h
    exact .refl _
  · rename_i h' d h'' d'
    obtain rfl : h' = h'' := by simpa using h
    exact .hole h' d d'
  · simp at h

/-- A test that accepts convertible terms only. -/
def TestSound (env : Env) (test : Nat → Term → Term → Option Bool) : Prop :=
  ∀ next a b k k', a.In (env.arityScope next) k → b.In (env.arityScope next) k' →
    test next a b = some true → env.Conv a b

lemma TestSound.spines (htest : env.TestSound test) {a : Term} (ha : a.In (env.arityScope next) k)
    (hb : b.In (env.arityScope next) k') (h : spinesEq (test next) a b = some true) : env.Conv a b := by
  unfold spinesEq at h
  split at h
  · rename_i hcond
    have hargs : List.Forall₂ env.Conv a.args b.args :=
      forall₂_of_allPairs
        (fun x hx y hy => htest next x y k k' (ha.head_args.2 x hx) (hb.head_args.2 y hy)) h hcond.1
    rw [← a.apply_head_args, ← b.apply_head_args]
    exact (conv_of_headsEq ha.head_args.1 hb.head_args.1 hcond.2).apply hargs
  · simp at h

/-- Bodies that pass the test when opened with the next hypothesis. -/
lemma TestSound.bodies (htest : env.TestSound test) (henv : env.Scoped) (hb : b.In (env.arityScope next) (k + 1))
    (hb' : b'.In (env.arityScope next) (k' + 1))
    (h : test (next + 1) (b.instantiate (.free ⟨next, none⟩)) (b'.instantiate (.free ⟨next, none⟩)) =
      some true) : env.Conv b b' := by
  have hle := env.arityScope_le (le_succ next)
  have hx : (free ⟨next, none⟩).In (env.arityScope (next + 1)) 0 := lt_succ_self next
  have hfresh : ¬ (env.arityScope next).free ⟨next, none⟩ := Nat.lt_irrefl next
  refine .of_instantiate_free henv.admits_noFree hb hb' hfresh (htest _ _ _ k k' ?_ ?_ h)
  · exact (hb.widen hle).instantiate (hx.le (zero_le k))
  · exact (hb'.widen hle).instantiate (hx.le (zero_le k'))

/-- An abstraction and a term that passes the test with its body on the next hypothesis. -/
lemma TestSound.eta (htest : env.TestSound test) (henv : env.Scoped) {x : Name} {t f : Term}
    (hm : m.In (env.arityScope next) (k + 1)) (hf : f.In (env.arityScope next) k')
    (h : test (next + 1) (m.instantiate (.free ⟨next, none⟩)) (f.app (.free ⟨next, none⟩)) = some true) :
    env.Conv (.lam x t m) f := by
  have hle := env.arityScope_le (le_succ next)
  have hx : (Term.free ⟨next, none⟩).In (env.arityScope (next + 1)) 0 := lt_succ_self next
  have hfresh : ¬ (env.arityScope next).free ⟨next, none⟩ := Nat.lt_irrefl next
  have hopened : env.Conv (m.instantiate (.free ⟨next, none⟩)) (f.app (.free ⟨next, none⟩)) :=
    htest _ _ _ k k' ((hm.widen hle).instantiate (hx.le (zero_le k)))
      ⟨hf.widen hle, hx.le (zero_le k')⟩ h
  have hbody := hopened.replace henv.admits_noFree (.abstracted ⟨next, none⟩)
  rw [Term.replace_abstracted hm hfresh, Term.replace, Term.replace_abstracted_eq_shift hf hfresh,
    Term.replace, show (Replacement.abstracted ⟨next, none⟩).free ⟨next, none⟩ = .var 0 from if_pos rfl]
    at hbody
  exact (Conv.lam (.refl t) hbody).trans (.eta x t f)

lemma testSound_isDefEq (henv : env.Scoped) (hcore : env.TestSound (env.isDefEqCore fuel)) :
    env.TestSound (env.isDefEq (fuel + 1)) := by
  intro next a b k k' ha hb h
  unfold isDefEq at h
  split at h
  · rename_i halpha
    exact .of_alphaEq halpha
  · obtain ⟨a', ha', h⟩ := bind_eq_some_iff.mp h
    obtain ⟨b', hb', h⟩ := bind_eq_some_iff.mp h
    have hsa := steps_of_whnfCore ha'
    have hsb := steps_of_whnfCore hb'
    have hconv := hcore next a' b' k k' (hsa.in_scope (henv.admits_arityScope next) ha)
      (hsb.in_scope (henv.admits_arityScope next) hb) h
    exact ((Conv.of_steps hsa).trans hconv).trans (Conv.of_steps hsb).symm

lemma testSound_isDefEqCore (henv : env.Scoped) (htest : env.TestSound (env.isDefEq fuel))
    (hdelta : env.TestSound (env.isDefEqDelta fuel)) : env.TestSound (env.isDefEqCore (fuel + 1)) := by
  intro next a b k k' ha hb h
  unfold isDefEqCore at h
  split at h
  · rename_i halpha
    exact .of_alphaEq halpha
  · dsimp only at h
    split at h
    · exact .sort (Level.value_eq_of_isEquiv (some.inj h))
    · obtain ⟨answer, ht, h⟩ := bind_eq_some_iff.mp h
      cases answer with
      | false => simp at h
      | true => exact .pi (htest _ _ _ k k' ha.1 hb.1 ht) (htest.bodies henv ha.2 hb.2 h)
    · obtain ⟨answer, ht, h⟩ := bind_eq_some_iff.mp h
      cases answer with
      | false => simp at h
      | true => exact .lam (htest _ _ _ k k' ha.1 hb.1 ht) (htest.bodies henv ha.2 hb.2 h)
    · exact htest.eta henv ha.2 hb h
    · exact (htest.eta henv hb.2 ha h).symm
    · obtain ⟨answer, hspines, h⟩ := bind_eq_some_iff.mp h
      cases answer with
      | false => exact hdelta next a b k k' ha hb (by simpa using h)
      | true => exact htest.spines ha hb hspines

lemma testSound_isDefEqDelta (henv : env.Scoped) (hcore : env.TestSound (env.isDefEqCore fuel)) :
    env.TestSound (env.isDefEqDelta (fuel + 1)) := by
  -- On either side the definition at the head is unfolded, or the term is left as it is.
  have hside : ∀ next m k (o : Option Term) m', m.In (env.arityScope next) k →
      (∀ m₁, o = some m₁ → env.Steps m m₁) → (o.map (env.whnfCore fuel)).getD (some m) = some m' →
      m'.In (env.arityScope next) k ∧ env.Conv m m' := by
    intro next m k o m' hm ho h
    have hsteps : env.Steps m m' := by
      cases o with
      | none => exact some.inj h ▸ .refl m
      | some m₁ => exact (ho m₁ rfl).trans (steps_of_whnfCore h)
    exact ⟨hsteps.in_scope (henv.admits_arityScope next) hm, .of_steps hsteps⟩
  have hunfold : ∀ m (p : Prop) [Decidable p] m₁, (if p then env.unfoldHead? m else none) = some m₁ →
      env.Steps m m₁ := by
    intro m p _ m₁ h
    split at h
    · exact steps_of_unfoldHead? h
    · simp at h
  intro next a b k k' ha hb h
  unfold isDefEqDelta at h
  dsimp only at h
  have hua := hunfold a (env.headHeight b ≤ env.headHeight a)
  have hub := hunfold b (env.headHeight a ≤ env.headHeight b)
  generalize (if env.headHeight b ≤ env.headHeight a then env.unfoldHead? a else none) = oa at h hua
  generalize (if env.headHeight a ≤ env.headHeight b then env.unfoldHead? b else none) = ob at h hub
  split at h
  · simp at h
  · obtain ⟨a', ha', h⟩ := bind_eq_some_iff.mp h
    obtain ⟨b', hb', h⟩ := bind_eq_some_iff.mp h
    obtain ⟨hina, hconva⟩ := hside next a k oa a' ha hua ha'
    obtain ⟨hinb, hconvb⟩ := hside next b k' ob b' hb hub hb'
    exact (hconva.trans (hcore next a' b' k k' hina hinb h)).trans hconvb.symm

lemma testSound (henv : env.Scoped) (fuel : Nat) : env.TestSound (env.isDefEq fuel) ∧
    env.TestSound (env.isDefEqCore fuel) ∧ env.TestSound (env.isDefEqDelta fuel) := by
  induction fuel with
  | zero => simp [TestSound, isDefEq, isDefEqCore, isDefEqDelta]
  | succ fuel ih =>
    obtain ⟨htest, hcore, hdelta⟩ := ih
    exact ⟨testSound_isDefEq henv hcore, testSound_isDefEqCore henv htest hdelta, testSound_isDefEqDelta henv hcore⟩

/-- Reduction and the conversion test are sound, for terms over declared constants with the right number of levels, and
over hypotheses with numbers below `next`: weak head normal forms are reached by contractions, and terms that the test
accepts are convertible. -/
theorem conversion_sound {env : Env} (henv : Reachable env) {next k k' : Nat} {a b : Term}
    (ha : a.In (env.arityScope next) k) (hb : b.In (env.arityScope next) k') :
    (∀ fuel a', env.whnfCore fuel a = some a' → env.Steps a a') ∧
    (∀ fuel a', env.whnf fuel a = some a' → env.Steps a a') ∧
    ∀ fuel, env.isDefEq fuel next a b = some true → env.Conv a b :=
  ⟨fun _ _ => steps_of_whnfCore, fun _ _ => steps_of_whnf,
    fun fuel => (testSound (scoped_of_reachable henv) fuel).1 next a b k k' ha hb⟩

/-- The natural numbers. -/
def numbers : InductiveSpec :=
  ⟨⟨"N"⟩, [], 0, .type,
    [(⟨"N.z"⟩, .const ⟨"N"⟩ []), (⟨"N.s"⟩, .arrow (.const ⟨"N"⟩ []) (.const ⟨"N"⟩ []))]⟩

lemma numbers_below : numbers.Below 0 := by
  simp [InductiveSpec.Below, numbers, Term.Below, Term.type, arrow, Term.In]

/-- The number zero. -/
def numberZero : Term :=
  .ctor ⟨"N"⟩ 0 ⟨"N.z"⟩ []

/-- The successor of a number. -/
def numberSucc (m : Term) : Term :=
  .app (.ctor ⟨"N"⟩ 1 ⟨"N.s"⟩ []) m

/-- Doubling by recursion. -/
def numberDouble : Term :=
  .lam ⟨"n"⟩ (.const ⟨"N"⟩ []) ((const ⟨"N.rec"⟩ [.one]).apply
    [.lam ⟨"n"⟩ (.const ⟨"N"⟩ []) (.const ⟨"N"⟩ []), numberZero,
      .lam ⟨"m"⟩ (.const ⟨"N"⟩ []) (.lam ⟨"ih"⟩ (.const ⟨"N"⟩ []) (numberSucc (numberSucc (.var 0)))),
      .var 0])

lemma added_numberDouble {env env' : Env} (h : (env.addDefinition 20 0 ⟨"double"⟩ []
    (.arrow (.const ⟨"N"⟩ []) (.const ⟨"N"⟩ [])) numberDouble).Yields env') : Added env env' := by
  refine .definition ?_ ?_ h <;> simp [Term.Below, arrow, numberDouble, numberSucc, numberZero, Term.In]

/-- The double of one is convertible to two, by δ, β and ι. -/
theorem double_one_conv_two : ∃ env a b, Reachable env ∧ a.In (env.arityScope 0) 0 ∧
    b.In (env.arityScope 0) 0 ∧ a = .app (.const ⟨"double"⟩ []) (numberSucc numberZero) ∧
    b = numberSucc (numberSucc numberZero) ∧ env.Conv a b := by
  let double : Term := .app (.const ⟨"double"⟩ []) (numberSucc numberZero)
  let two : Term := numberSucc (numberSucc numberZero)
  have hadd : ∃ env₁ env₂, (({} : Env).addInductive 20 0 numbers).Yields env₁ ∧
      (env₁.addDefinition 20 0 ⟨"double"⟩ [] (.arrow (.const ⟨"N"⟩ []) (.const ⟨"N"⟩ []))
        numberDouble).Yields env₂ ∧
      (∃ d, env₂.get? ⟨"double"⟩ = some d ∧ d.levelParams.length = 0) ∧
      (∃ t, env₂.inductive? ⟨"N"⟩ = some t ∧ t.levelParams.length = 0) ∧
      env₂.isDefEq 20 0 double two = some true :=
    ⟨_, _, rfl, rfl, ⟨_, rfl, rfl⟩, ⟨_, rfl, rfl⟩, rfl⟩
  obtain ⟨env₁, env₂, hN, hdouble, hconst, hctor, htest⟩ := hadd
  have hreach : Reachable env₂ :=
    (Relation.ReflTransGen.single (.family numbers_below hN)).tail (added_numberDouble hdouble)
  have hin : double.In (env₂.arityScope 0) 0 := ⟨hconst, hctor, hctor⟩
  have hin' : two.In (env₂.arityScope 0) 0 := ⟨hctor, hctor, hctor⟩
  exact ⟨env₂, double, two, hreach, hin, hin', rfl, rfl,
    (conversion_sound hreach hin hin').2.2 20 htest⟩

end Env

end ProofAssistant
