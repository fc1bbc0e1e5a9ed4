import ProofAssistant.Proofs.Alphabet
import ProofAssistant.Proofs.UnificationInvariants

/-!
# Elaboration stays over its alphabet

Each function of the elaborator keeps the invariant that hypotheses, goals and solutions are over an
alphabet, and what it answers is over it too. `Alphabet.Covers` says what the elaborator itself may put in:
declarations, instances, transitivity rules and proofs by decision procedures. The functions that a step
calls on parts of an expression are assumed to do the same (`Recursion.Over`).
-/

namespace ProofAssistant

open ElabM List FreshM Option Nat Metas Term

variable {A : Alphabet} {n : Nat} {μ₀ μ₁ : Metas}
variable {α : Type} {type pattern lhs result target : Term} {x : ElabM α} {P : α → Prop} {spine : List Id} {μ : Metas}
  {resolve : Context → Term → ElabM Term} {goals : List Goal} {strict : Bool} {given : Option Expr}
  {steps : List ChainStep}
variable {g : Goal} {Γ : Context} {e : Expr} {t : Term}

/-! ## Unification -/

/-- Solutions are over the alphabet, and holes that have been solved since `μ₁` need not be deferred. -/
def Alphabet.solving (A : Alphabet) (μ₀ μ₁ : Metas) : Invariant where
  supply _ := True
  metas μ := μ.OverSince A μ₀ ∧ ∀ h, μ.isAssigned h → μ₁.isAssigned h ∨ A.bare h

/-- The invariant of elaboration, with that of unification for the solutions. -/
def Alphabet.elaborating (A : Alphabet) (n : Nat) (μ₀ μ₁ : Metas) : Invariant where
  supply := Supply.OverFrom A n
  metas := (A.solving μ₀ μ₁).metas

namespace Env

variable {env : Env} {s : Supply}
variable {fuel next : Nat}

lemma Solvable.over_hole {m : Term} (h : Solvable s pattern m g spine)
    (hpattern : pattern.Over A) : A.hole g.id ∧ A.bare g.id := by
  rw [h.pattern_eq, over_apply] at hpattern
  exact ⟨hpattern.1.1, hpattern.1.2.2 rfl⟩

/-- The binders for the arguments of a function, and the type of its result. -/
lemma over_openArguments (hA : A.CoversEnv env) (hμ : μ.Over A) {count : Nat} (htype : type.Over A) {hs : List Local}
    (h : env.openArguments μ fuel count next type = some (some (hs, result))) :
    (∀ x ∈ hs, x.type.Over A) ∧ result.Over A := by
  induction count generalizing next type hs result with
  | zero =>
    obtain ⟨rfl, rfl⟩ := Prod.mk.inj (some.inj (some.inj h))
    exact ⟨by simp, htype⟩
  | succ count ih =>
    obtain ⟨type', hwhnf, h⟩ := bind_eq_some_iff.mp h
    have htype' := hA.whnfOf hμ hwhnf htype
    split at h
    · obtain ⟨rest, hrest, h⟩ := bind_eq_some_iff.mp h
      split at h
      · obtain ⟨rfl, rfl⟩ := Prod.mk.inj (some.inj (some.inj h))
        obtain ⟨hhs, hresult⟩ := ih (htype'.2.instantiate (Local.over_term _)) hrest
        exact ⟨forall_mem_cons.mpr ⟨htype'.1, hhs⟩, hresult⟩
      · simp at h
    · simp at h

lemma over_of_mem_zip (xs : List Id) {ms : List Term} (h : ∀ m ∈ ms, m.Over A) : ∀ p ∈ xs.zip ms, p.2.Over A :=
  fun _ hp => h _ (of_mem_zip hp).2

/-- The binders of a hole that is solved, and the type of its result. -/
lemma OpensPattern.over (hA : A.CoversEnv env) (hs : s.Stated A) (hμ : μ.Over A) {m : Term}
    {extra : List Local} (hpattern : pattern.Over A) (h : env.OpensPattern s μ fuel next pattern m g spine extra type) :
    (∀ x ∈ g.context.locals ++ extra, x.type.Over A) ∧ type.Over A := by
  have hg := hs g h.solvable.goal (h.solvable.over_hole hpattern).1
  obtain ⟨hextra, htype⟩ := over_openArguments hA hμ (hμ.instantiate hg.target) h.opened
  exact ⟨forall_mem_append.mpr ⟨hg.context, hextra⟩, htype⟩

lemma unifiesWithin_over (hA : A.CoversEnv env) (hs : s.Stated A) (μ₀ μ₁ : Metas) :
    env.UnifiesWithin s (A.solving μ₀ μ₁) (Term.Over A) where
  free _ := trivial
  app := Iff.rfl
  lam h := ⟨h.1, fun _ => h.2.instantiate trivial⟩
  pi h := ⟨h.1, fun _ => h.2.instantiate trivial⟩
  steps := hA.steps
  instantiate hμ := hμ.1.instantiate
  typeOf hμ hΓ hm h := hA.typeOf hs hμ.1.toOver hΓ hm h
  expected hμ hpattern _ h := (h.over hA hs hμ.1.toOver hpattern).2.subst
    (over_of_mem_zip _ (forall_mem_map.mpr fun _ _ => trivial))
  solve hμ hpattern hm h hμ' _ := by
    obtain ⟨hbinders, -⟩ := h.over hA hs hμ.1.toOver hpattern
    refine ⟨hμ'.1.assign ((hm.subst (over_of_mem_zip _ (Local.over_terms _))).abs hbinders), fun z hz => ?_⟩
    rw [isAssigned_assign, Bool.or_eq_true, beq_iff_eq] at hz
    rcases hz with rfl | hz
    · exact .inr (h.solvable.over_hole hpattern).2
    · exact hμ'.2 z hz
  levels _ _ _ _ hμ _ _ := ⟨⟨⟨hμ.1.holes, hμ.1.pending⟩, hμ.1.grows.solved, hμ.1.grows.pending⟩, hμ.2⟩

end Env

/-! ## Expressions and what they are made of -/

mutual

/-- The names in the expression, and the terms embedded in it, are over the alphabet; a proof is left out
only if holes may be deferred. -/
inductive Expr.Over (A : Alphabet) : Expr → Prop
  | ident {n : Name} : A.const n → Expr.Over A (.ident n)
  | explicit {n : Name} : A.const n → Expr.Over A (.explicit n)
  | app {f a : Expr} : Expr.Over A f → Expr.Over A a → Expr.Over A (.app f a)
  | lam {x : Name} {type : Option Expr} {b : Expr} :
    (∀ t ∈ type, Expr.Over A t) → Expr.Over A b → Expr.Over A (.lam x type b)
  | pi {x : Name} {i : Bool} {t b : Expr} : Expr.Over A t → Expr.Over A b → Expr.Over A (.pi x i t b)
  | sort {l : Level} : Expr.Over A (.sort l)
  | hole : Expr.Over A .hole
  | deferred : A.deferred → Expr.Over A .deferred
  | this : Expr.Over A .this
  | assumption {t : Expr} : Expr.Over A t → Expr.Over A (.assumption t)
  | annot {e t : Expr} : Expr.Over A e → Expr.Over A t → Expr.Over A (.annot e t)
  | term {m : Term} : m.Over A → Expr.Over A (.term m)
  | script {t : Tactic} : Tactic.Over A t → Expr.Over A (.script t)
  | chain {e : Expr} {steps : List ChainStep} :
    Expr.Over A e → (∀ s ∈ steps, ChainStep.Over A s) → Expr.Over A (.chain e steps)

/-- The expressions of the step are over the alphabet. -/
inductive ChainStep.Over (A : Alphabet) : ChainStep → Prop
  | mk {r e p : Expr} : Expr.Over A r → Expr.Over A e → Expr.Over A p → ChainStep.Over A (.mk r e p)

/-- The expressions in the tactic are over the alphabet; a goal is left unproved only if holes may be
deferred. -/
inductive Tactic.Over (A : Alphabet) : Tactic → Prop
  | intro {names : List Name} : Tactic.Over A (.intro names)
  | cases {h : Name} {names : List Name} : Tactic.Over A (.cases h names)
  | induction {x : Name} {names : List Name} : Tactic.Over A (.induction x names)
  | rw {e : Expr} {reverse : Bool} {occurrence : Option Nat} :
    Expr.Over A e → Tactic.Over A (.rw e reverse occurrence)
  | split : Tactic.Over A .split
  | assumption : Tactic.Over A .assumption
  | exact {e : Expr} : Expr.Over A e → Tactic.Over A (.exact e)
  | apply {e : Expr} : Expr.Over A e → Tactic.Over A (.apply e)
  | simp {es : List Expr} : (∀ e ∈ es, Expr.Over A e) → Tactic.Over A (.simp es)
  | rfl : Tactic.Over A .rfl
  | decide : Tactic.Over A .decide
  | deferred : A.deferred → Tactic.Over A .deferred
  | seq {ts : List Tactic} : (∀ t ∈ ts, Tactic.Over A t) → Tactic.Over A (.seq ts)
  | loop {t : Tactic} : Tactic.Over A t → Tactic.Over A (.loop t)
  | focus {t : Tactic} : Tactic.Over A t → Tactic.Over A (.focus t)
  | all {t : Tactic} : Tactic.Over A t → Tactic.Over A (.all t)
  | orElse {t u : Tactic} : Tactic.Over A t → Tactic.Over A u → Tactic.Over A (.orElse t u)

end

lemma Expr.Over.head (h : e.Over A) : e.head.Over A := by
  fun_induction Expr.head e with
  | case1 f a ih =>
    cases h with
    | app hf _ => exact ih hf
  | case2 => exact h

lemma Expr.Over.argsThen (h : e.Over A) {rest : List Expr} (hrest : ∀ a ∈ rest, a.Over A) :
    ∀ a ∈ e.argsThen rest, a.Over A := by
  fun_induction Expr.argsThen e rest with
  | case1 rest f a ih =>
    cases h with
    | app hf ha => exact ih hf (forall_mem_cons.mpr ⟨ha, hrest⟩)
  | case2 => exact hrest

lemma Expr.Over.args (h : e.Over A) : ∀ a ∈ e.args, a.Over A :=
  h.argsThen (by simp)

lemma Expr.Over.apply (h : e.Over A) {as : List Expr} (has : ∀ a ∈ as, a.Over A) : (e.apply as).Over A := by
  induction as generalizing e with
  | nil => exact h
  | cons a as ih =>
    rw [forall_mem_cons] at has
    exact ih (h.app has.1) has.2

/-- What an elaborator puts into terms is over the alphabet. -/
structure Alphabet.Covers (A : Alphabet) (E : Elaborator) : Prop extends A.CoversEnv E.env where
  family {c : Name} {d : Decl} {t : Name} {i : Nat} :
    E.env.get? c = some d → d.kind = .constructor t i → A.const c → A.family t
  eliminates {c : Name} {t : InductiveType} : E.env.inductive? c = some t → A.const c →
    A.family c ∧ A.const t.recursor
  instances {c : Name} : ∀ i ∈ E.env.instancesOf c, A.const i.name
  rules {left right c : Name} : E.env.transRule? left right = some c → A.const c
  equality : ∀ c ∈ ["Eq.refl", "Eq.symm", "Eq.subst"], A.const ⟨c⟩
  deciders {d : Decider} {next : Nat} {Γ : Context} {target proof : Term} : d ∈ E.deciders →
    Γ.Over A → target.Over A → d.decide E.env E.fuel next Γ target = some (some proof) →
    (E.env.check E.levelParams E.fuel next Γ proof target).Yields () → proof.Over A

/-- The functions that a step calls keep everything over the alphabet. -/
structure Recursion.Over (A : Alphabet) (R : Recursion) : Prop where
  visit {μ₀ : Metas} {Γ : Context} {e : Expr} {expected : Option Term} : Γ.Over A → e.Over A →
    (∀ t ∈ expected, t.Over A) →
    ElabM.Keeps (A.invariant μ₀) (R.visit Γ e expected) fun r => r.1.Over A ∧ r.2.Over A
  run {μ₀ : Metas} {t : Tactic} {goals : List Goal} : t.Over A → (∀ g ∈ goals, g.Over A) →
    ElabM.Keeps (A.invariant μ₀) (R.run t goals) fun goals => ∀ g ∈ goals, g.Over A

section All

variable {start : Nat} {early : Prop} {s : Supply}

/-- Everything, with the numbers from `start` on for what is new. -/
def Alphabet.all (start : Nat) (early : Prop := True) : Alphabet where
  start := start
  early := early

lemma Term.over_all (m : Term) : m.Over (.all start early) :=
  (leafwise_over _).all (fun _ m hleaf => by cases m <;> simp_all [IsLeaf, Over, Alphabet.all]) 0 m

lemma Alphabet.covers_all (start : Nat) (E : Elaborator) : (Alphabet.all start early).Covers E where
  terms _ _ m _ := m.over_all
  ctors _ _ k _ := k.type.over_all
  family _ _ _ := trivial
  eliminates _ _ := ⟨trivial, trivial⟩
  instances _ _ := trivial
  rules _ := trivial
  equality _ _ := trivial
  deciders _ _ _ _ _ := over_all _

lemma Goal.over_all (g : Goal) : g.Over (.all start early) :=
  ⟨⟨fun x _ => x.type.over_all, g.target.over_all⟩, trivial, trivial⟩

lemma Metas.over_all (μ : Metas) : μ.Over (.all start early) where
  holes p _ := p.2.over_all
  pending g _ := g.over_all

lemma Supply.over_all (h : start ≤ s.next) : s.Over (.all start) where
  start := h
  goals g _ _ := g.over_all.toStated
  numbers := .inl trivial

end All

/-! ## New hypotheses and holes -/

lemma FreshM.keeps_newLevel : FreshM.Keeps (A.invariantFrom n μ₀) newLevel fun _ => True := by
  intro s hs l s' h
  obtain ⟨_, rfl⟩ := Prod.mk.inj (ends_modifyGet.mp h)
  exact ⟨⟨le_succ_of_le hs.start, hs.goals, hs.numbers.imp_right fun h g hg => lt_succ_of_lt (h g hg)⟩, trivial⟩

lemma FreshM.keeps_assume (x : Name) (ht : t.Over A) :
    FreshM.Keeps (A.invariantFrom n μ₀) (assume x t) fun x => x.type.Over A := by
  intro s hs x s' h
  obtain ⟨rfl, rfl⟩ := Prod.mk.inj (ends_modifyGet.mp h)
  exact ⟨⟨le_succ_of_le hs.start, hs.goals, hs.numbers.imp_right fun h g hg => lt_succ_of_lt (h g hg)⟩, ht⟩

lemma FreshM.keeps_declareFrom (hΓ : Γ.Over A) (ht : t.Over A) :
    FreshM.Keeps (A.invariantFrom n μ₀) (declare Γ t) fun g => g.Stated A ∧ n ≤ g.id.number := by
  intro s hs g s' h
  obtain ⟨rfl, rfl⟩ := Prod.mk.inj (ends_modifyGet.mp h)
  refine ⟨⟨le_succ_of_le hs.start, fun g' hg' hh => ?_, hs.numbers.imp_right fun h => ?_⟩, ⟨hΓ, ht⟩, hs.start⟩
  · rcases mem_cons.mp hg' with rfl | hg'
    · exact ⟨hΓ, ht⟩
    · exact hs.goals g' hg' hh
  · exact forall_mem_cons.mpr ⟨lt_succ_self _, fun g' hg' => lt_succ_of_lt (h g' hg')⟩

lemma FreshM.keeps_declare (hΓ : Γ.Over A) (ht : t.Over A) :
    FreshM.Keeps (A.invariant μ₀) (declare Γ t) fun g => g.Over A :=
  (keeps_declareFrom hΓ ht).mono fun _ ⟨hg, hn⟩ => ⟨hg, A.new_hole _ hn, A.new_bare _ hn⟩

namespace ElabM

variable {Γ : Context} {t : Term}

lemma keeps_instantiate (ht : t.Over A) : ElabM.Keeps (A.invariantFrom n μ₀) (instantiate t) (Term.Over A) :=
  ElabM.Keeps.get.bind fun _ hμ => .pure (hμ.instantiate ht)

lemma keeps_newHole (hΓ : Γ.Over A) (ht : t.Over A) : ElabM.Keeps (A.invariant μ₀) (newHole Γ t) (Term.Over A) :=
  (ElabM.Keeps.lift (keeps_declare hΓ ht)).bind fun _ hg => .pure hg.openHole

lemma keeps_newInstanceHole (hΓ : Γ.Over A) (ht : t.Over A) :
    ElabM.Keeps (A.invariant μ₀) (newInstanceHole Γ t) (Term.Over A) := by
  refine (ElabM.Keeps.lift (keeps_declare hΓ ht)).bind fun g hg => ?_
  refine (ElabM.Keeps.modify fun μ (hμ : μ.OverSince A μ₀) => ?_).bind fun _ _ => .pure hg.openHole
  refine ⟨⟨hμ.holes, fun g' hg' => ?_⟩, hμ.grows.solved, fun g' hg' => ?_⟩
  · exact (mem_append.mp hg').elim (hμ.pending g') fun h => mem_singleton.mp h ▸ hg
  · exact (hμ.grows.pending g' hg').imp_left (mem_append_left _)

lemma keeps_newDeferred (hA : A.deferred) (hn : ∀ h : Id, n ≤ h.number → A.hole h) (hΓ : Γ.Over A)
    (ht : t.Over A) : ElabM.Keeps (A.invariantFrom n μ₀) (newDeferred Γ t) (Term.Over A) :=
  (ElabM.Keeps.lift (keeps_declareFrom hΓ ht)).bind fun g hg =>
    .pure (Goal.over_holeAs (hn g.id hg.2) (fun _ => hA) (by simp))

lemma keeps_newTypeHole (hΓ : Γ.Over A) : ElabM.Keeps (A.invariant μ₀) (newTypeHole Γ) (Term.Over A) :=
  (ElabM.Keeps.lift keeps_newLevel).bind fun _ _ => keeps_newHole hΓ trivial

end ElabM

namespace Elaborator

variable {E : Elaborator} {R : Recursion} {Γ : Context}
variable {m type : Term} {e : Expr} {expected : Option Term}

lemma keeps_whnf (hE : A.Covers E) (hm : m.Over A) : ElabM.Keeps (A.invariantFrom n μ₀) (E.whnf m) (Term.Over A) :=
  ElabM.Keeps.get.bind fun _ hμ => .lift (.ofOption fun _ h => hE.whnfOf hμ.toOver h hm)

/-- What keeps the stronger invariant, from wherever it starts, keeps that of elaboration. -/
lemma keeps_of_elaborating
    (hx : ∀ μ₁, ElabM.Keeps (A.elaborating n μ₀ μ₁) x P) : ElabM.Keeps (A.invariantFrom n μ₀) x P := by
  refine .intro fun X hs hμ a Y h => ?_
  obtain ⟨hs', hμ', ha⟩ := (hx X.metas).of_ends hs ⟨hμ, fun _ => .inl⟩ h
  exact ⟨hs', hμ'.1, ha⟩

lemma elaborating_unify (hE : A.Covers E) (hΓ : Γ.Over A) {a b : Term} (ha : a.Over A) (hb : b.Over A) :
    ElabM.Keeps (A.elaborating n μ₀ μ₁) (E.unify Γ a b) fun _ => True := by
  refine ElabM.Keeps.getSupply.bind fun s hs => ElabM.Keeps.get.bind fun μ hμ => ?_
  refine (ElabM.Keeps.lift (.ofOption fun r hr => ?_)).bind fun r (hr : (A.elaborating n μ₀ μ₁).metas r.2) => ?_
  · exact ((Env.unifiesWithin_over hE.toCoversEnv hs.goals μ₀ μ₁).keeps_unify hΓ ha hb μ hμ r.1 r.2 hr).1
  · exact (ElabM.Keeps.set hr).bind fun _ _ => .pure trivial

lemma keeps_unify (hE : A.Covers E) (hΓ : Γ.Over A) {a b : Term} (ha : a.Over A) (hb : b.Over A) :
    ElabM.Keeps (A.invariantFrom n μ₀) (E.unify Γ a b) fun _ => True :=
  keeps_of_elaborating fun _ => elaborating_unify hE hΓ ha hb

lemma keeps_typeOf (hE : A.Covers E) (hΓ : Γ.Over A) (hm : m.Over A) :
    ElabM.Keeps (A.invariantFrom n μ₀) (E.typeOf Γ m) (Term.Over A) := by
  refine ElabM.Keeps.getSupply.bind fun s hs => ElabM.Keeps.get.bind fun μ hμ => .lift ?_
  intro s' hs' type s'' h
  obtain ⟨htype, rfl⟩ := ends_ofElaboration.mp h
  exact ⟨hs', hE.typeOf hs.goals hμ.toOver hΓ hm htype⟩

lemma keeps_sortOf (m : Term) : ElabM.Keeps (A.invariantFrom n μ₀) (E.sortOf Γ m) fun _ => True := by
  refine ElabM.Keeps.getSupply.bind fun s _ => ElabM.Keeps.get.bind fun μ _ => .lift ?_
  intro s' hs' l s'' h
  obtain ⟨_, rfl⟩ := ends_ofElaboration.mp h
  exact ⟨hs', trivial⟩

lemma keeps_newArgument (hΓ : Γ.Over A) (ht : t.Over A) :
    ElabM.Keeps (A.invariant μ₀) (E.newArgument Γ t) (Term.Over A) := by
  refine ElabM.Keeps.get.bind fun μ _ => ?_
  split
  · exact keeps_newInstanceHole hΓ ht
  · exact keeps_newHole hΓ ht

lemma keeps_findHypothesis (hE : A.Covers E) (hΓ : Γ.Over A) (ht : t.Over A) :
    ElabM.Keeps (A.invariantFrom n μ₀) (E.findHypothesis Γ t) fun r => ∀ x ∈ r, x.type.Over A := by
  refine (ElabM.Keeps.findM? fun x hx => ?_).mono fun r hr x hx => hΓ x (mem_reverse.mp (hr x hx))
  exact .orRestore (keeps_unify hE hΓ (hΓ x (mem_reverse.mp hx)) ht)

/-! ## Instances -/

lemma elaborating_instantiate (ht : t.Over A) : ElabM.Keeps (A.elaborating n μ₀ μ₁) (instantiate t) (Term.Over A) :=
  ElabM.Keeps.get.bind fun _ hμ => .pure (hμ.1.instantiate ht)

lemma elaborating_whnf (hE : A.Covers E) (hm : m.Over A) :
    ElabM.Keeps (A.elaborating n μ₀ μ₁) (E.whnf m) (Term.Over A) :=
  ElabM.Keeps.get.bind fun _ hμ => .lift (.ofOption fun _ h => hE.whnfOf hμ.1.toOver h hm)

lemma elaborating_newHole (hΓ : Γ.Over A) (ht : t.Over A) :
    ElabM.Keeps (A.elaborating A.start μ₀ μ₁) (newHole Γ t) (Term.Over A) :=
  have hdeclare : FreshM.Keeps (A.invariant μ₀) (declare Γ t) fun g => g.Over A := keeps_declare hΓ ht
  (ElabM.Keeps.lift (I := A.elaborating A.start μ₀ μ₁) hdeclare).bind fun _ hg => .pure hg.openHole

lemma elaborating_attempts {β : Type} {attempt : α → ElabM (Option β)} {P : β → Prop} {as : List α}
    (h : ∀ a ∈ as, ElabM.Keeps (A.elaborating A.start μ₀ μ₁) (attempt a) fun r => ∀ b ∈ r, P b) :
    ElabM.Keeps (A.elaborating A.start μ₀ μ₁) (attempts attempt as) fun rs =>
      ∀ r ∈ rs, P r.1 ∧ r.2.supply.OverFrom A A.start ∧ (A.elaborating A.start μ₀ μ₁).metas r.2.metas := by
  induction as with
  | nil => exact .pure (by simp)
  | cons a as ih =>
    rw [forall_mem_cons] at h
    refine ElabM.Keeps.situation.bind fun before hbefore => h.1.bind fun result hresult => ?_
    refine ElabM.Keeps.situation.bind fun after hafter => (ElabM.Keeps.goTo hbefore).bind fun _ _ => ?_
    refine (ih h.2).bind fun results hresults => ?_
    cases result with
    | none => exact .pure hresults
    | some b => exact .pure (forall_mem_cons.mpr ⟨⟨hresult b (by simp), hafter⟩, hresults⟩)

section

variable (hE : A.Covers E)
include hE

lemma elaborating_openInstance (hΓ : Γ.Over A) (fuel : Nat) (hm : m.Over A) (htype : type.Over A) :
    ElabM.Keeps (A.elaborating A.start μ₀ μ₁) (E.openInstance Γ fuel m type) fun r =>
      r.1.Over A ∧ r.2.1.Over A ∧ ∀ p ∈ r.2.2, p.1.Over A ∧ p.2.Over A := by
  induction fuel generalizing m type with
  | zero => exact .exhausted
  | succ fuel ih =>
    refine (elaborating_whnf hE htype).bind fun type' htype' => ?_
    split
    · refine (elaborating_newHole hΓ htype'.1).bind fun hole hhole => ElabM.Keeps.get.bind fun μ _ => ?_
      refine (ih (hm.app hhole) (htype'.2.instantiate hhole)).bind
        fun ⟨m', found, subgoals⟩ ⟨hm', hfound, hsub⟩ => ?_
      refine .pure ⟨hm', hfound, ?_⟩
      split
      · exact forall_mem_cons.mpr ⟨⟨hhole, htype'.1⟩, hsub⟩
      · exact hsub
    · exact .pure ⟨hm, htype, by simp⟩

lemma elaborating_solveSubgoals
    (hresolve : ∀ Γ t, Γ.Over A → t.Over A → ElabM.Keeps (A.elaborating A.start μ₀ μ₁) (resolve Γ t) (Term.Over A))
    (hΓ : Γ.Over A) {subgoals : List (Term × Term)} (h : ∀ p ∈ subgoals, p.1.Over A ∧ p.2.Over A) :
    ElabM.Keeps (A.elaborating A.start μ₀ μ₁) (E.solveSubgoals resolve Γ subgoals) fun _ => True := by
  induction subgoals with
  | nil => exact .pure trivial
  | cons p subgoals ih =>
    rw [forall_mem_cons] at h
    refine (elaborating_instantiate h.1.2).bind fun type htype => ?_
    refine (ElabM.Keeps.tryCatch (P := fun r => ∀ m ∈ r, m.Over A)
      (.map ((hresolve Γ type hΓ htype).mono ?_)) fun e => .pure (by simp)).bind fun found hfound => ?_
    · exact fun m hm m' hm' => some.inj hm' ▸ hm
    cases found with
    | none => exact .pure trivial
    | some m =>
      refine (elaborating_unify hE hΓ h.1.1 (hfound m (by simp))).bind fun solved _ => ?_
      split
      · exact ih h.2
      · exact .pure trivial

lemma elaborating_applyInstance
    (hresolve : ∀ Γ t, Γ.Over A → t.Over A → ElabM.Keeps (A.elaborating A.start μ₀ μ₁) (resolve Γ t) (Term.Over A)) (hΓ : Γ.Over A)
    (htype : type.Over A) {i : Instance} (hi : A.const i.name) :
    ElabM.Keeps (A.elaborating A.start μ₀ μ₁) (E.applyInstance resolve Γ type i) fun r => ∀ m ∈ r, m.Over A := by
  unfold applyInstance
  split
  · rename_i d hd
    have hnew : FreshM.Keeps (A.invariant μ₀) newLevel fun _ => True := keeps_newLevel
    refine (ElabM.Keeps.mapM (I := A.elaborating A.start μ₀ μ₁) fun _ _ => .lift hnew).bind fun levels _ => ?_
    have hd := (over_instantiateLevelParams d.levelParams levels _).mpr
      (hE.terms hd hi d.type d.type_mem_terms)
    refine (elaborating_openInstance hE hΓ E.fuel (m := .const i.name levels) hi hd).bind
      fun ⟨m, found, subgoals⟩ ⟨hm, hfound, hsub⟩ => ?_
    refine (elaborating_unify hE hΓ hfound htype).bind fun solved _ => ?_
    split
    · exact .pure (by simp)
    refine (elaborating_solveSubgoals hE hresolve hΓ hsub).bind fun solved _ => ?_
    split
    · exact .pure (by simp)
    · exact .pure fun m' hm' => some.inj hm' ▸ hm
  · exact .pure (by simp)

lemma elaborating_applyHypothesis (hΓ : Γ.Over A) (c : Name) (htype : type.Over A) {x : Local}
    (hx : x.type.Over A) : ElabM.Keeps (A.elaborating A.start μ₀ μ₁) (E.applyHypothesis Γ c type x) fun r => ∀ m ∈ r, m.Over A := by
  refine (elaborating_instantiate hx).bind fun found hfound => ?_
  split
  · split
    · exact .pure (by simp)
    refine (elaborating_unify hE hΓ hfound htype).bind fun solved _ => ?_
    split
    · exact .pure fun m hm => some.inj hm ▸ x.over_term
    · exact .pure (by simp)
  · exact .pure (by simp)

lemma elaborating_resolve (depth : Nat) (hΓ : Γ.Over A) (htype : type.Over A) :
    ElabM.Keeps (A.elaborating A.start μ₀ μ₁) (E.resolve depth Γ type) (Term.Over A) := by
  induction depth generalizing Γ type with
  | zero => exact .fail _ _
  | succ depth ih =>
    unfold resolve
    split
    · rename_i c levels _
      refine (elaborating_attempts (P := fun r => r.2.Over A) fun x hx => ?_).bind fun hypotheses hhyp => ?_
      · refine (elaborating_applyHypothesis hE hΓ c htype (hΓ x (mem_reverse.mp hx))).bind fun r hr => .pure ?_
        simpa using hr
      refine (elaborating_attempts (P := fun r => r.2.Over A) fun i hi => ?_).bind fun instances hinst => ?_
      · refine (elaborating_applyInstance hE (fun _ _ hΓ ht => ih hΓ ht) hΓ htype (hE.instances i hi)).bind
          fun r hr => .pure ?_
        simpa using hr
      dsimp only
      split
      · exact .fail _ _
      · rename_i k hk
        have hmem := mem_singleton_self k
        rw [← hk] at hmem
        have hcandidate : k.term.Over A ∧ k.situation.supply.OverFrom A A.start ∧
            (A.elaborating A.start μ₀ μ₁).metas k.situation.metas := by
          rcases mem_append.mp (mem_of_mem_filter hmem) with hmem | hmem
          · obtain ⟨r, hr, rfl⟩ := mem_map.mp hmem
            exact hhyp r hr
          · obtain ⟨r, hr, rfl⟩ := mem_map.mp hmem
            exact hinst r hr
        exact (ElabM.Keeps.goTo hcandidate.2).bind fun _ _ => elaborating_instantiate hcandidate.1
      · exact .fail _ _
    · exact .fail _ _

lemma elaborating_resolveGoal (hg : g.Over A) :
    ElabM.Keeps (A.elaborating A.start μ₀ μ₁) (E.resolveGoal g) fun _ => True := by
  refine (elaborating_instantiate hg.target).bind fun type htype => ?_
  refine (elaborating_resolve hE _ hg.context htype).bind fun m hm => ?_
  refine .modify fun μ hμ => ⟨hμ.1.assignGoal hg.toStated hm, fun h hh => ?_⟩
  rw [assignGoal, isAssigned_assign, Bool.or_eq_true, beq_iff_eq] at hh
  exact hh.elim (fun hid => .inr (hid ▸ hg.bare)) (hμ.2 h)

end

lemma solved_of_resolveGoal {X Y : Situation} {u : Unit} (h : ElabM.Ends (E.resolveGoal g) X u Y) :
    Y.metas.isAssigned g.id = true := by
  obtain ⟨_, _, _, h⟩ := h.bind
  obtain ⟨_, _, _, h⟩ := h.bind
  obtain rfl := ends_modify.mp h
  simp [assignGoal]

section

variable (hE : A.Covers E)
include hE

lemma elaborating_resolveKnown (h : ∀ g ∈ goals, g.Over A) :
    ElabM.Keeps (A.elaborating A.start μ₀ μ₁) (E.resolveKnown goals) fun r => ∀ g ∈ r.2, g.Over A := by
  induction goals with
  | nil => exact .pure (by simp)
  | cons g goals ih =>
    rw [forall_mem_cons] at h
    refine ElabM.Keeps.get.bind fun μ _ => ?_
    split
    · exact ih h.2
    refine (elaborating_instantiate h.1.target).bind fun target _ => ?_
    split
    · exact (ih h.2).bind fun ⟨_, left⟩ hleft => .pure (forall_mem_cons.mpr ⟨h.1, hleft⟩)
    · exact (elaborating_resolveGoal hE h.1).bind fun _ _ => (ih h.2).bind fun r hr => .pure hr

/-- No goal is lost: one that is not given back has been solved. -/
lemma solved_of_resolveKnown (h : ∀ g ∈ goals, g.Over A)
    {X Y : Situation} {r : Bool × List Goal} (hs : X.supply.Over A) (hμ : X.metas.Over A)
    (hends : ElabM.Ends (E.resolveKnown goals) X r Y) : ∀ g ∈ goals, g ∈ r.2 ∨ Y.metas.isAssigned g.id = true := by
  induction goals generalizing X r with
  | nil => simp
  | cons g goals ih =>
    rw [forall_mem_cons] at h ⊢
    -- what is solved by then stays solved in the rest
    have hrest : ∀ {Z : Situation} {r' : Bool × List Goal}, Z.supply.Over A → Z.metas.Over A →
        ElabM.Ends (E.resolveKnown goals) Z r' Y → Z.metas.Grows Y.metas := fun hs hμ h' =>
      ((elaborating_resolveKnown hE h.2).of_ends hs ⟨⟨hμ, .refl _⟩, fun _ => .inl⟩ h').2.1.1.grows
    obtain ⟨_, _, hget, hends⟩ := hends.bind
    obtain ⟨rfl, rfl⟩ := ends_get.mp hget
    split at hends
    · rename_i hassigned
      exact ⟨.inr ((hrest hs hμ hends).solved _ hassigned), ih h.2 hs hμ hends⟩
    obtain ⟨_, _, htarget, hends⟩ := hends.bind
    obtain ⟨rfl, rfl⟩ := ends_instantiate.mp htarget
    split at hends
    · obtain ⟨⟨progress, left⟩, _, hknown, hpure⟩ := hends.bind
      obtain ⟨rfl, rfl⟩ := hpure.pure
      exact ⟨.inl mem_cons_self, fun g' hg' => (ih h.2 hs hμ hknown g' hg').imp_left
        (mem_cons_of_mem g)⟩
    · obtain ⟨_, Z, hgoal, hends⟩ := hends.bind
      obtain ⟨hs', hμ', -⟩ := (elaborating_resolveGoal hE h.1).of_ends hs ⟨⟨hμ, .refl _⟩, fun _ => .inl⟩ hgoal
      obtain ⟨r', _, hknown, hpure⟩ := hends.bind
      obtain ⟨rfl, rfl⟩ := hpure.pure
      refine ⟨.inr ((hrest hs' hμ'.1.toOver hknown).solved _ (solved_of_resolveGoal hgoal)), fun g' hg' => ?_⟩
      exact ih h.2 hs' hμ'.1.toOver hknown g' hg'

lemma elaborating_resolveRounds (rounds : Nat) :
    ElabM.Keeps (A.elaborating A.start μ₀ μ₁) (E.resolveRounds rounds) fun _ => True := by
  induction rounds with
  | zero => exact .pure trivial
  | succ rounds ih =>
    -- the goals that are left are put back where it is known which of them have been solved
    refine ElabM.Keeps.intro fun X (hs : X.supply.Over A) ⟨hμ, hsolved⟩ _ Y hends => ?_
    obtain ⟨_, _, hget, hends⟩ := hends.bind
    obtain ⟨rfl, rfl⟩ := ends_get.mp hget
    obtain ⟨⟨progress, left⟩, Z, hknown, hends⟩ := hends.bind
    obtain ⟨_, _, hmodify, hends⟩ := hends.bind
    obtain rfl := ends_modify.mp hmodify
    obtain ⟨hs', ⟨hμ', hsolved'⟩, hleft⟩ :=
      (elaborating_resolveKnown hE hμ.pending).of_ends hs ⟨hμ, hsolved⟩ hknown
    have hgrows : X.metas.Grows Z.metas := ((elaborating_resolveKnown hE hμ.pending).of_ends hs
      ⟨⟨hμ.toOver, .refl _⟩, fun _ => .inl⟩ hknown).2.1.1.grows
    have hsince : (A.elaborating A.start μ₀ μ₁).metas { Z.metas with pending := left } := by
      refine ⟨⟨⟨hμ'.holes, hleft⟩, hμ'.grows.solved, fun g hg => ?_⟩, hsolved'⟩
      rcases hμ.grows.pending g hg with hg | hg
      · exact solved_of_resolveKnown hE hμ.pending hs hμ.toOver hknown g hg
      · exact .inr (hgrows.solved g.id hg)
    split at hends
    · exact ih.of_ends (X := ⟨Z.supply, { Z.metas with pending := left }⟩) hs' hsince hends
    · obtain ⟨-, rfl⟩ := hends.pure
      exact ⟨hs', hsince, trivial⟩

/-- In the end nothing waits any more, which is known only if nothing did before. -/
lemma elaborating_resolvePending (hstrict : strict = true → μ₀.pending = []) :
    ElabM.Keeps (A.elaborating A.start μ₀ μ₁) (E.resolvePending strict) fun _ => True := by
  refine ElabM.Keeps.get.bind fun μ _ => (elaborating_resolveRounds hE _).bind fun _ _ => ?_
  split
  · rename_i hs
    refine ElabM.Keeps.get.bind fun μ hμ => (ElabM.Keeps.forIn fun g hg _ => ?_).bind fun _ _ => ?_
    · refine ElabM.Keeps.get.bind fun μ' _ => ?_
      split
      · exact (elaborating_resolveGoal hE (hμ.1.pending g hg)).bind fun _ _ => .pure trivial
      · exact .pure trivial
    · exact .modify fun μ hμ => ⟨⟨⟨hμ.1.holes, by simp⟩, hμ.1.grows.solved, by simp [hstrict hs]⟩, hμ.2⟩
  · exact .pure trivial

lemma keeps_resolvePending (hstrict : strict = true → μ₀.pending = []) :
    ElabM.Keeps (A.invariant μ₀) (E.resolvePending strict) fun _ => True :=
  keeps_of_elaborating fun _ => elaborating_resolvePending hE hstrict

end

lemma keeps_newGoals (hm : m.Over A) :
    ElabM.Keeps (A.invariant μ₀) (newGoals m) fun goals => ∀ g ∈ goals, g.Over A := by
  refine ElabM.Keeps.get.bind fun μ hμ => ElabM.Keeps.getSupply.bind fun s hs => .pure fun g hg => ?_
  exact hμ.openGoals hs.goals hm g (mem_of_mem_filter hg)

/-! ## Expressions -/

section

variable (hE : A.Covers E)
include hE

lemma keeps_visitAs (hR : R.Over A) (hΓ : Γ.Over A) (he : e.Over A) {expected : Term}
    (hexpected : expected.Over A) : ElabM.Keeps (A.invariant μ₀) (E.visitAs R Γ e expected) (Term.Over A) := by
  refine (hR.visit hΓ he (by simpa using hexpected)).bind fun ⟨m, type⟩ ⟨hm, htype⟩ => ?_
  refine (keeps_unify hE hΓ htype hexpected).bind fun solved _ => ?_
  split
  · exact .pure hm
  · exact ElabM.Keeps.get.bind fun _ _ => .fail _ _

lemma keeps_visitType (hR : R.Over A) (hΓ : Γ.Over A) (he : e.Over A) :
    ElabM.Keeps (A.invariant μ₀) (E.visitType R Γ e) fun r => r.1.Over A := by
  refine (hR.visit hΓ he (by simp)).bind fun ⟨m, type⟩ ⟨hm, htype⟩ => ?_
  refine (keeps_whnf hE htype).bind fun type' htype' => ?_
  split
  · exact .pure hm
  refine (ElabM.Keeps.lift keeps_newLevel).bind fun l _ => ?_
  split
  · refine (keeps_unify hE hΓ htype' (b := .sort l) trivial).bind fun solved _ => ?_
    split
    · exact .pure hm
    · exact .fail _ _
  · exact .fail _ _

lemma keeps_visitName (hΓ : Γ.Over A) {n : Name} (hn : A.const n) :
    ElabM.Keeps (A.invariant μ₀) (E.visitName Γ n) fun r => r.1.Over A ∧ r.2.Over A := by
  unfold visitName
  split
  · rename_i x hx
    exact .pure ⟨x.over_term, hΓ.find? hx⟩
  split
  · rename_i d hd
    refine (ElabM.Keeps.mapM fun _ _ => .lift keeps_newLevel).bind fun levels _ => .pure ⟨?_, ?_⟩
    · dsimp only
      split
      · exact hE.family hd ‹_› hn
      · exact hn
    · exact (over_instantiateLevelParams ..).mpr (hE.terms hd hn d.type d.type_mem_terms)
  · exact .fail _ _

lemma keeps_openDomain (hΓ : Γ.Over A) (explicit : Bool) (fuel : Nat) (hm : m.Over A)
    (htype : type.Over A) : ElabM.Keeps (A.invariant μ₀) (E.openDomain Γ explicit fuel m type) fun r =>
      r.1.Over A ∧ r.2.1.Over A ∧ r.2.2.Over A := by
  induction fuel generalizing m type with
  | zero => exact .exhausted
  | succ fuel ih =>
    refine (keeps_whnf hE htype).bind fun type' htype' => ?_
    split
    · split
      · refine (keeps_newArgument hΓ htype'.1).bind fun a ha => ?_
        exact ih (hm.app ha) (htype'.2.instantiate ha)
      · exact .pure ⟨hm, htype'⟩
    · exact (keeps_instantiate hm).bind fun _ _ => .fail _ _

lemma keeps_insertImplicits (hΓ : Γ.Over A) (fuel : Nat) (hm : m.Over A) (htype : type.Over A) :
    ElabM.Keeps (A.invariant μ₀) (E.insertImplicits Γ fuel m type) fun r => r.1.Over A ∧ r.2.Over A := by
  induction fuel generalizing m type with
  | zero => exact .exhausted
  | succ fuel ih =>
    refine (keeps_whnf hE htype).bind fun type' htype' => ?_
    split
    · refine (keeps_newArgument hΓ htype'.1).bind fun a ha => ?_
      exact ih (hm.app ha) (htype'.2.instantiate ha)
    · exact .pure ⟨hm, htype⟩

lemma keeps_visitArgs (hR : R.Over A) (hΓ : Γ.Over A) (explicit : Bool) {es : List Expr}
    (hes : ∀ e ∈ es, e.Over A) (hm : m.Over A) (htype : type.Over A) :
    ElabM.Keeps (A.invariant μ₀) (E.visitArgs R Γ explicit es m type) fun r => r.1.Over A ∧ r.2.Over A := by
  induction es generalizing m type with
  | nil => exact .pure ⟨hm, htype⟩
  | cons e es ih =>
    rw [forall_mem_cons] at hes
    refine (keeps_openDomain hE hΓ explicit E.fuel hm htype).bind fun ⟨m, t, b⟩ ⟨hm, ht, hb⟩ => ?_
    refine (keeps_visitAs hE hR hΓ hes.1 ht).bind fun a ha => ?_
    exact ih hes.2 (hm.app ha) (hb.instantiate ha)

lemma keeps_visitApp (hR : R.Over A) (hΓ : Γ.Over A) (he : e.Over A) :
    ElabM.Keeps (A.invariant μ₀) (E.visitApp R Γ e) fun r => r.1.Over A ∧ r.2.Over A := by
  have hhead := he.head
  unfold visitApp
  split
  · rename_i n hn
    rw [hn] at hhead
    cases hhead with
    | ident hc =>
      refine (keeps_visitName hE hΓ hc).bind fun ⟨m, type⟩ ⟨hm, htype⟩ => ?_
      refine (keeps_visitArgs hE hR hΓ false he.args hm htype).bind fun ⟨m, type⟩ ⟨hm, htype⟩ => ?_
      exact keeps_insertImplicits hE hΓ E.fuel hm htype
  · rename_i n hn
    rw [hn] at hhead
    cases hhead with
    | explicit hc =>
      refine (keeps_visitName hE hΓ hc).bind fun ⟨m, type⟩ ⟨hm, htype⟩ => ?_
      exact keeps_visitArgs hE hR hΓ true he.args hm htype
  · refine (hR.visit hΓ hhead (by simp)).bind fun ⟨m, type⟩ ⟨hm, htype⟩ => ?_
    exact keeps_visitArgs hE hR hΓ true he.args hm htype

lemma keeps_visitBinderType (hR : R.Over A) (hΓ : Γ.Over A)
    (hgiven : ∀ e ∈ given, e.Over A) {domain : Option Term} (hdomain : ∀ t ∈ domain, t.Over A) :
    ElabM.Keeps (A.invariant μ₀) (E.visitBinderType R Γ given domain) (Term.Over A) := by
  unfold visitBinderType
  split
  · rename_i e domain
    refine (keeps_visitType hE hR hΓ (hgiven e (by simp))).bind fun ⟨t, l⟩ ht => ?_
    refine (keeps_unify hE hΓ ht (hdomain domain (by simp))).bind fun solved _ => ?_
    split
    · exact .pure ht
    · exact ElabM.Keeps.get.bind fun _ _ => .fail _ _
  · rename_i e
    exact (keeps_visitType hE hR hΓ (hgiven e (by simp))).bind fun _ ht => .pure ht
  · rename_i domain
    exact .pure (hdomain domain (by simp))
  · exact keeps_newTypeHole hΓ

lemma keeps_mapWhnf (h : ∀ t ∈ expected, t.Over A) :
    ElabM.Keeps (A.invariant μ₀) (expected.mapM E.whnf) fun r => ∀ t ∈ r, t.Over A := by
  cases expected with
  | none => exact .pure (by simp)
  | some t => exact .map ((keeps_whnf hE (h t (by simp))).mono fun m hm m' hm' => some.inj hm' ▸ hm)

lemma keeps_visitLam (hR : R.Over A) (hΓ : Γ.Over A) (x : Name)
    (hgiven : ∀ e ∈ given, e.Over A) {body : Expr} (hbody : body.Over A) (hexpected : ∀ t ∈ expected, t.Over A) :
    ElabM.Keeps (A.invariant μ₀) (E.visitLam R Γ x given body expected) fun r => r.1.Over A ∧ r.2.Over A := by
  refine (keeps_mapWhnf hE hexpected).bind fun expected hexpected => ?_
  split
  · rename_i implicit domain codomain
    obtain ⟨hdomain, hcodomain⟩ := hexpected _ (mem_some_self _)
    refine (keeps_visitBinderType hE hR hΓ hgiven (by simpa using hdomain)).bind fun t ht => ?_
    refine (ElabM.Keeps.lift (keeps_assume x ht)).bind fun h hh => ?_
    have htype := hcodomain.instantiate h.over_term
    refine (keeps_visitAs hE hR (hΓ.push hh) hbody htype).bind fun m hm => ?_
    exact .pure ⟨hm.abs (by simpa using hh), ht, htype.close _ 0⟩
  · refine (keeps_visitBinderType hE hR hΓ hgiven (by simp)).bind fun t ht => ?_
    refine (ElabM.Keeps.lift (keeps_assume x ht)).bind fun h hh => ?_
    refine (hR.visit (hΓ.push hh) hbody (by simp)).bind fun ⟨m, type⟩ ⟨hm, htype⟩ => ?_
    exact .pure ⟨hm.abs (by simpa using hh), ht, htype.close _ 0⟩

lemma keeps_visitPi (hR : R.Over A) (hΓ : Γ.Over A) (x : Name) (implicit : Bool)
    {type body : Expr} (htype : type.Over A) (hbody : body.Over A) :
    ElabM.Keeps (A.invariant μ₀) (E.visitPi R Γ x implicit type body) fun r => r.1.Over A ∧ r.2.Over A := by
  refine (keeps_visitType hE hR hΓ htype).bind fun ⟨t, l⟩ ht => ?_
  refine (ElabM.Keeps.lift (keeps_assume x ht)).bind fun h hh => ?_
  refine (keeps_visitType hE hR (hΓ.push hh) hbody).bind fun ⟨b, l'⟩ hb => ?_
  exact .pure ⟨⟨ht, hb.close _ 0⟩, trivial⟩

end

/-! ## Chains of relations -/

lemma keeps_inStep (h : ElabM.Keeps (A.invariant μ₀) x P) (i : Nat) : ElabM.Keeps (A.invariant μ₀) (inStep Γ i x) P :=
  .tryCatch h fun _ => .throw _

lemma keeps_relationOf (i : Nat) (statement : Term) :
    ElabM.Keeps (A.invariant μ₀) (relationOf Γ i statement) fun _ => True := by
  unfold relationOf
  split
  · exact .pure trivial
  · exact .throw _

/-- The proof and the statement of a part of a chain. -/
structure Link.Over (A : Alphabet) (k : Link) : Prop where
  proof : k.proof.Over A
  statement : k.statement.Over A

lemma keeps_visitStep (hE : A.Covers E) (hR : R.Over A) (hΓ : Γ.Over A) (i : Nat)
    (hlhs : lhs.Over A) {s : ChainStep} (hs : s.Over A) :
    ElabM.Keeps (A.invariant μ₀) (E.visitStep R Γ i lhs s) fun r => r.1.Over A ∧ r.2.Over A := by
  cases hs with
  | mk hr he hp =>
    refine (keeps_inStep (hR.visit hΓ he (by simp)) i).bind fun ⟨rhs, _⟩ ⟨hrhs, _⟩ => ?_
    have hstatement := hr.apply (forall_mem_cons.mpr ⟨.term hlhs, forall_mem_singleton.mpr (.term hrhs)⟩)
    refine (keeps_inStep (keeps_visitType hE hR hΓ hstatement) i).bind fun ⟨statement, _⟩ hstatement => ?_
    refine (keeps_instantiate hstatement).bind fun statement hstatement => ?_
    refine (keeps_relationOf i statement).bind fun relation _ => ?_
    refine (keeps_inStep (keeps_visitAs hE hR hΓ hp hstatement) i).bind fun proof hproof => ?_
    exact .pure ⟨hrhs, hproof, hstatement⟩

lemma keeps_combine (hE : A.Covers E) (hR : R.Over A) (hΓ : Γ.Over A) (i : Nat) {a b : Link}
    (ha : a.Over A) (hb : b.Over A) : ElabM.Keeps (A.invariant μ₀) (E.combine R Γ i a b) (Link.Over A) := by
  unfold combine
  split
  · rename_i rule hrule
    have hproof := (Expr.Over.ident (hE.rules hrule)).apply
      (forall_mem_cons.mpr ⟨.term ha.proof, forall_mem_singleton.mpr (.term hb.proof)⟩)
    refine (keeps_inStep (hR.visit hΓ hproof (by simp)) i).bind fun ⟨proof, statement⟩ ⟨hp, hs⟩ => ?_
    refine (keeps_instantiate hs).bind fun statement hs => ?_
    exact (keeps_relationOf i statement).bind fun _ _ => .pure ⟨hp, hs⟩
  · exact .throw _

lemma keeps_visitSteps (hE : A.Covers E) (hR : R.Over A) (hΓ : Γ.Over A) (i : Nat)
    (hlhs : lhs.Over A) {acc : Option Link} (hacc : ∀ k ∈ acc, k.Over A) (hsteps : ∀ s ∈ steps, s.Over A) :
    ElabM.Keeps (A.invariant μ₀) (E.visitSteps R Γ i lhs acc steps) fun r => ∀ k ∈ r, k.Over A := by
  induction steps generalizing i lhs acc with
  | nil => exact .pure hacc
  | cons s steps ih =>
    rw [forall_mem_cons] at hsteps
    refine (keeps_visitStep hE hR hΓ i hlhs hsteps.1).bind fun ⟨rhs, link⟩ ⟨hrhs, hlink⟩ => ?_
    cases acc with
    | none => exact ih (i + 1) hrhs (by simpa using hlink) hsteps.2
    | some acc =>
      refine (keeps_combine hE hR hΓ i (hacc acc (by simp)) hlink).bind fun link hlink => ?_
      exact ih (i + 1) hrhs (by simpa using hlink) hsteps.2

lemma keeps_visitChain (hE : A.Covers E) (hR : R.Over A) (hΓ : Γ.Over A) {start : Expr}
    (hstart : start.Over A) (hsteps : ∀ s ∈ steps, s.Over A) :
    ElabM.Keeps (A.invariant μ₀) (E.visitChain R Γ start steps) fun r => r.1.Over A ∧ r.2.Over A := by
  unfold visitChain
  split
  · exact .throw_bind _ _
  refine (hR.visit hΓ hstart (by simp)).bind fun ⟨lhs, _⟩ ⟨hlhs, _⟩ => ?_
  refine (keeps_visitSteps hE hR hΓ 0 hlhs (by simp) hsteps).bind fun link hlink => ?_
  cases link with
  | none => exact .throw _
  | some link => exact .pure ⟨(hlink link (by simp)).proof, (hlink link (by simp)).statement⟩

/-! ## All forms -/

lemma keeps_visitScript (hR : R.Over A) (hΓ : Γ.Over A) {t : Tactic} (ht : t.Over A) (htarget : target.Over A) :
    ElabM.Keeps (A.invariant μ₀) (visitScript R Γ t target) fun r => r.1.Over A ∧ r.2.Over A := by
  refine (keeps_instantiate htarget).bind fun target htarget => ?_
  refine (ElabM.Keeps.lift (keeps_declare hΓ htarget)).bind fun g hg => ?_
  refine (hR.run ht (by simpa using hg)).bind fun goals _ => ?_
  split
  · exact .throw_bind _ _
  · exact .pure ⟨hg.openHole, hg.target⟩

lemma keeps_visitForm (hE : A.Covers E) (hR : R.Over A) (hΓ : Γ.Over A) (he : e.Over A)
    (hexpected : ∀ t ∈ expected, t.Over A) :
    ElabM.Keeps (A.invariant μ₀) (E.visitForm R Γ e expected) fun r => r.1.Over A ∧ r.2.Over A := by
  cases he with
  | ident hn => exact keeps_visitApp hE hR hΓ (.ident hn)
  | explicit hn => exact keeps_visitApp hE hR hΓ (.explicit hn)
  | app hf ha => exact keeps_visitApp hE hR hΓ (.app hf ha)
  | lam ht hb => exact keeps_visitLam hE hR hΓ _ ht hb hexpected
  | pi ht hb => exact keeps_visitPi hE hR hΓ _ _ ht hb
  | sort => exact .pure ⟨trivial, trivial⟩
  | hole =>
    have htype : ElabM.Keeps (A.invariant μ₀) (expected.getDM (newTypeHole Γ)) (Term.Over A) := by
      cases expected with
      | none => exact keeps_newTypeHole hΓ
      | some t => exact .pure (hexpected t (by simp))
    exact htype.bind fun type htype => (keeps_newHole hΓ htype).bind fun m hm => .pure ⟨hm, htype⟩
  | deferred hA =>
    cases expected with
    | none => exact .fail _ _
    | some t =>
      have ht := hexpected t (by simp)
      exact (keeps_newDeferred hA A.new_hole hΓ ht).bind fun m hm => .pure ⟨hm, ht⟩
  | this =>
    simp only [visitForm]
    split
    · rename_i x hx
      exact .pure ⟨x.over_term, hΓ x (mem_of_getLast? hx)⟩
    · exact .fail _ _
  | assumption ht =>
    refine (keeps_visitType hE hR hΓ ht).bind fun ⟨prop, _⟩ hprop => ?_
    refine (keeps_findHypothesis hE hΓ hprop).bind fun found _ => ?_
    cases found with
    | none => exact (keeps_instantiate hprop).bind fun _ _ => .fail _ _
    | some x => exact .pure ⟨x.over_term, hprop⟩
  | annot he ht =>
    refine (keeps_visitType hE hR hΓ ht).bind fun ⟨type, _⟩ htype => ?_
    exact (keeps_visitAs hE hR hΓ he htype).bind fun m hm => .pure ⟨hm, htype⟩
  | term hm => exact (keeps_typeOf hE hΓ hm).bind fun type htype => .pure ⟨hm, htype⟩
  | script ht =>
    cases expected with
    | none => exact .fail _ _
    | some target => exact keeps_visitScript hR hΓ ht (hexpected target (by simp))
  | chain hstart hsteps => exact keeps_visitChain hE hR hΓ hstart hsteps

end Elaborator

end ProofAssistant
