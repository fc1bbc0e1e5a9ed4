import ProofAssistant.Proofs.Invariants
import ProofAssistant.Proofs.Steps
import ProofAssistant.Proofs.Telescope

/-!
# Invariants of unification

Unification solves universe metavariables and holes of patterns, and takes terms apart, reduces them and reads off
their types to get there. An invariant of the solutions is kept by all of it if both kinds of solutions keep it,
for the terms that unification meets; `Env.UnifiesWithin` says so for terms with a property that all these terms
have.
-/

namespace ProofAssistant

open Level List Context

variable {I : Invariant}

/-! ## Levels -/

/-- The invariant is kept where unification of levels solves a metavariable that is open or leads back to itself. -/
def Invariant.SolvesLevels (I : Invariant) : Prop :=
  ∀ μ a b u, I.metas μ → Metas.instantiateLevel μ a = .mvar u → ¬ (μ.instantiateLevel b).containsMVar u →
    I.metas (μ.assignLevel u (μ.instantiateLevel b))

namespace Level

/-- What a call does with the levels `a` and `b`, and `run fuel` if its calls have this much fuel. -/
inductive UnifyStep (μ : Metas) (a b : Level) (run : Nat → Option (Bool × Metas)) : Prop
  | fails : (∀ fuel, run fuel = some (false, μ)) → UnifyStep μ a b run
  | equiv : (μ.instantiateLevel a).isEquiv (μ.instantiateLevel b) → (∀ fuel, run fuel = some (true, μ)) →
    UnifyStep μ a b run
  | assignLeft {u : Id} : μ.instantiateLevel a = .mvar u → ¬ (μ.instantiateLevel b).containsMVar u →
    (∀ fuel, run fuel = some (true, μ.assignLevel u (μ.instantiateLevel b))) → UnifyStep μ a b run
  | assignRight {u : Id} : μ.instantiateLevel b = .mvar u → ¬ (μ.instantiateLevel a).containsMVar u →
    (∀ fuel, run fuel = some (true, μ.assignLevel u (μ.instantiateLevel a))) → UnifyStep μ a b run
  | succ {a₁ b₁ : Level} : μ.instantiateLevel a = a₁.succ → μ.instantiateLevel b = b₁.succ →
    (∀ fuel, run fuel = (unify fuel a₁ b₁).run μ) → UnifyStep μ a b run
  | parts {join : Level → Level → Level} {a₁ a₂ b₁ b₂ : Level} : join = .max ∨ join = .imax →
    μ.instantiateLevel a = join a₁ a₂ → μ.instantiateLevel b = join b₁ b₂ →
    (∀ fuel, run fuel = (SolveM.orRestore do
      if ← unify fuel a₁ b₁ then unify fuel a₂ b₂ else return false).run μ) → UnifyStep μ a b run

lemma unifyStep (μ : Metas) (a b : Level) : UnifyStep μ a b fun fuel => (unify (fuel + 1) a b).run μ := by
  change UnifyStep μ a b fun fuel =>
    StateT.run (if (μ.instantiateLevel a).isEquiv (μ.instantiateLevel b) then _ else _) μ
  by_cases hequiv : (μ.instantiateLevel a).isEquiv (μ.instantiateLevel b)
  · exact .equiv hequiv fun fuel => by rw [if_pos hequiv]; rfl
  -- otherwise the shapes of the levels decide, with all solutions put in
  simp only [if_neg hequiv]
  generalize hA : μ.instantiateLevel a = a'
  generalize hB : μ.instantiateLevel b = b'
  split
  · rename_i u
    split
    · exact .fails fun _ => rfl
    · rename_i hnot
      subst hB
      exact .assignLeft hA hnot fun _ => rfl
  · rename_i u _
    split
    · exact .fails fun _ => rfl
    · rename_i hnot
      subst hA
      exact .assignRight hB hnot fun _ => rfl
  · exact .succ hA hB fun _ => rfl
  · exact .parts (.inl rfl) hA hB fun _ => rfl
  · exact .parts (.inr rfl) hA hB fun _ => rfl
  · exact .fails fun _ => rfl

lemma keeps_unify (hI : I.SolvesLevels) (fuel : Nat) (a b : Level) :
    SolveM.Keeps I (unify fuel a b) fun _ => True := by
  induction fuel generalizing a b with
  | zero => exact .failure
  | succ fuel ih =>
    have hboth (a₁ a₂ b₁ b₂ : Level) : SolveM.Keeps I
        (do if ← unify fuel a₁ b₁ then unify fuel a₂ b₂ else return false) fun _ => True :=
      (ih a₁ b₁).bind fun _ _ => .ite (fun _ => ih a₂ b₂) fun _ => .pure trivial
    intro μ hμ solved μ' hrun
    cases unifyStep μ a b with
    | fails h | equiv _ h =>
      obtain ⟨-, rfl⟩ := Prod.mk.inj (Option.some.inj ((h fuel).symm.trans hrun))
      exact ⟨hμ, trivial⟩
    | assignLeft hu hnot h | assignRight hu hnot h =>
      obtain ⟨-, rfl⟩ := Prod.mk.inj (Option.some.inj ((h fuel).symm.trans hrun))
      exact ⟨hI μ _ _ _ hμ hu hnot, trivial⟩
    | @succ a₁ b₁ _ _ h => exact ih a₁ b₁ μ hμ solved μ' ((h fuel).symm.trans hrun)
    | @parts _ a₁ a₂ b₁ b₂ _ _ _ h => exact (hboth a₁ a₂ b₁ b₂).orRestore μ hμ solved μ' ((h fuel).symm.trans hrun)

lemma keeps_unifyAll (hI : I.SolvesLevels) (fuel : Nat) (ls ls' : List Level) :
    SolveM.Keeps I (unifyAll fuel ls ls') fun _ => True := by
  unfold unifyAll
  split
  · exact .allPairs fun l _ l' _ => keeps_unify hI fuel l l'
  · exact .pure trivial

end Level

/-! ## Contexts -/

namespace Context

lemma types_push (Γ : Context) (x : Local) :
    (Γ.push x).locals.map Local.type = Γ.locals.map Local.type ++ [x.type] := by
  have htypes := congrArg (List.map Prod.snd) (Γ.entries_push x)
  rw [List.map_map, List.map_map, locals_add, map_append] at htypes
  exact htypes

/-- A property of all types is kept by a new hypothesis, whatever is renamed for it. -/
lemma forall_type_push {T : Term → Prop} {Γ : Context} (hΓ : ∀ x ∈ Γ.locals, T x.type) {x : Local} (hx : T x.type) :
    ∀ y ∈ (Γ.push x).locals, T y.type := by
  intro y hy
  have hmem : y.type ∈ Γ.locals.map Local.type ++ [x.type] := types_push Γ x ▸ mem_map_of_mem hy
  rcases mem_append.mp hmem with hold | hnew
  · obtain ⟨z, hz, hzy⟩ := mem_map.mp hold
    exact hzy ▸ hΓ z hz
  · exact mem_singleton.mp hnew ▸ hx

end Context

/-! ## Terms -/

lemma Term.eq_of_distinctFree {before : List Id} {ms : List Term} {xs : List Id}
    (h : distinctFree before ms = some xs) : ms = xs.map .free := by
  induction ms generalizing before xs with
  | nil => exact Option.some.inj h ▸ rfl
  | cons m ms ih =>
    cases m with
    | free x =>
      rw [distinctFree] at h
      split at h
      · simp at h
      · obtain ⟨ys, hys, rfl⟩ := Option.map_eq_some_iff.mp h
        rw [map_cons, ih hys]
    | _ => simp [distinctFree] at h

namespace Env

lemma keeps_unifyHeads (hI : I.SolvesLevels) (fuel : Nat) (a b : Term) :
    SolveM.Keeps I (unifyHeads fuel a b) fun _ => True := by
  unfold unifyHeads
  split
  · split
    · exact keeps_unifyAll hI _ _ _
    · exact .pure trivial
  · split
    · exact keeps_unifyAll hI _ _ _
    · exact .pure trivial
  all_goals exact .pure trivial

/-- The term `pattern` is an open hole on hypotheses `spine`, and `m` mentions these hypotheses only. -/
structure Solvable (s : Supply) (pattern m : Term) (g : Goal) (spine : List Id) : Prop where
  goal : g ∈ s.goals
  pattern_eq : pattern = (Term.hole g.id false).apply (spine.map .free)
  length : g.context.locals.length ≤ spine.length
  supported : m.isSupportedBy spine

lemma solvable_of_solvable? {s : Supply} {μ : Metas} {pattern m : Term} {g : Goal} {spine : List Id}
    (h : solvable? s μ pattern m = some (g, spine)) : Solvable s pattern m g spine := by
  obtain ⟨p, hp, h⟩ := Option.bind_eq_some_iff.mp h
  obtain ⟨g', hg, h⟩ := Option.bind_eq_some_iff.mp h
  obtain ⟨_, hguard, h⟩ := Option.bind_eq_some_iff.mp h
  obtain ⟨rfl, rfl⟩ := Prod.mk.inj (Option.some.inj h)
  have hguard : p.deferred = false ∧ g'.context.locals.length ≤ p.spine.length ∧ m.isSupportedBy p.spine := by
    simp only [guard] at hguard
    split at hguard
    · rename_i hall
      simp only [Bool.and_eq_true, Bool.not_eq_true', decide_eq_true_eq] at hall
      exact ⟨hall.1.1.1.1, hall.1.1.2, hall.2⟩
    · simp at hguard
  have hid : g'.id = p.hole := by simpa using List.find?_some hg
  refine ⟨List.mem_of_find?_eq_some hg, ?_, hguard.2.1, hguard.2.2⟩
  unfold Term.pattern? at hp
  split at hp
  · rename_i hole deferred hhead
    obtain ⟨spine, hspine, rfl⟩ := Option.map_eq_some_iff.mp hp
    have hdeferred : deferred = false := hguard.1
    rw [hid, ← Term.eq_of_distinctFree hspine, ← hdeferred, ← hhead, Term.apply_head_args]
  · simp at hp

/-- The hole of a pattern is to be solved by `m`, and its target takes the arguments `extra` that it is applied to
beyond its context. -/
structure OpensPattern (env : Env) (s : Supply) (μ : Metas) (fuel next : Nat) (pattern m : Term) (g : Goal)
    (spine : List Id) (extra : List Local) (type : Term) : Prop where
  solvable : Solvable s pattern m g spine
  opened : env.openArguments μ fuel (spine.length - g.context.locals.length) next (μ.instantiate g.target) =
    some (some (extra, type))

/-- Unification that starts with terms that satisfy `T` meets only such terms, if solutions satisfy `I`, and the
solutions that it finds for them keep `I`. -/
structure UnifiesWithin (env : Env) (s : Supply) (I : Invariant) (T : Term → Prop) : Prop where
  free (x : Id) : T (.free x)
  app {f a : Term} : T (.app f a) ↔ T f ∧ T a
  lam {x : Name} {t b : Term} : T (.lam x t b) → T t ∧ ∀ y, T (b.instantiate (.free y))
  pi {x : Name} {i : Bool} {t b : Term} : T (.pi x i t b) → T t ∧ ∀ y, T (b.instantiate (.free y))
  steps {m m' : Term} : env.Steps m m' → T m → T m'
  instantiate {μ : Metas} {m : Term} : I.metas μ → T m → T (μ.instantiate m)
  typeOf {μ : Metas} {fuel next : Nat} {Γ : Context} {m t : Term} : I.metas μ → (∀ x ∈ Γ.locals, T x.type) → T m →
    (env.typeOf s μ fuel next Γ m).Yields t → T t
  expected {μ : Metas} {fuel next : Nat} {pattern m : Term} {g : Goal} {spine : List Id} {extra : List Local}
    {type : Term} : I.metas μ → T pattern → T m → env.OpensPattern s μ fuel next pattern m g spine extra type →
    T (type.subst (((g.context.locals ++ extra).map Local.id).zip (spine.map Term.free)))
  solve {μ μ' : Metas} {fuel next : Nat} {pattern m : Term} {g : Goal} {spine : List Id} {extra : List Local}
    {type : Term} : I.metas μ → T pattern → T m → env.OpensPattern s μ fuel next pattern m g spine extra type →
    I.metas μ' → ¬ μ'.isAssigned g.id → I.metas (μ'.assign g.id
      ((m.subst (spine.zip ((g.context.locals ++ extra).map Local.term))).abs (g.context.locals ++ extra)))
  levels : I.SolvesLevels

namespace UnifiesWithin

variable {env : Env} {s : Supply} {T : Term → Prop}

lemma args (h : env.UnifiesWithin s I T) {m : Term} (hm : T m) : ∀ a ∈ m.args, T a := by
  induction m with
  | app f a ihf _ =>
    obtain ⟨hf, ha⟩ := h.app.mp hm
    rw [Term.args_app, List.forall_mem_append, List.forall_mem_singleton]
    exact ⟨ihf hf, ha⟩
  | _ => exact fun a ha => nomatch ha

/-- All functions of unification keep the invariant, within the fuel. -/
structure KeepsAll (env : Env) (s : Supply) (I : Invariant) (T : Term → Prop) (fuel : Nat) : Prop where
  unify : ∀ next Γ a b, (∀ x ∈ locals Γ, T x.type) → T a → T b →
    SolveM.Keeps I (env.unify s fuel next Γ a b) fun _ => True
  core : ∀ next Γ a b, (∀ x ∈ locals Γ, T x.type) → T a → T b →
    SolveM.Keeps I (env.unifyCore s fuel next Γ a b) fun _ => True
  spines : ∀ next Γ a b, (∀ x ∈ locals Γ, T x.type) → T a → T b →
    SolveM.Keeps I (env.unifySpines s fuel next Γ a b) fun _ => True
  solve : ∀ next Γ pattern m, (∀ x ∈ locals Γ, T x.type) → T pattern → T m →
    SolveM.Keeps I (env.solve? s fuel next Γ pattern m) fun _ => True

namespace KeepsAll

variable {fuel next : Nat} {Γ : Context} {a b : Term}

section

variable (h : env.UnifiesWithin s I T)
include h

lemma step_unify (ih : KeepsAll env s I T fuel) (hΓ : ∀ x ∈ Γ.locals, T x.type)
    (ha : T a) (hb : T b) : SolveM.Keeps I (env.unify s (fuel + 1) next Γ a b) fun _ => True := by
  unfold Env.unify
  refine SolveM.Keeps.get.bind fun μ hμ => SolveM.Keeps.get.bind fun μ' hμ' => ?_
  have ha := h.instantiate hμ ha
  have hb := h.instantiate hμ' hb
  dsimp only
  split
  · exact .pure trivial
  -- either side may be a pattern
  refine (ih.solve next Γ _ _ hΓ ha hb).bind fun solved _ => ?_
  split
  · exact .pure trivial
  refine (ih.solve next Γ _ _ hΓ hb ha).bind fun solved _ => ?_
  split
  · exact .pure trivial
  -- none was solved: the sides are reduced, and tried again if that has changed them
  refine (SolveM.Keeps.lift fun a' ha' => h.steps (steps_of_whnfCore ha') ha).bind fun a' ha' => ?_
  refine (SolveM.Keeps.lift fun b' hb' => h.steps (steps_of_whnfCore hb') hb).bind fun b' hb' => ?_
  split
  · exact ih.core next Γ a' b' hΓ ha' hb'
  · exact ih.unify next Γ a' b' hΓ ha' hb'

/-- Two binders, whose bodies are opened with one hypothesis. -/
lemma step_binder (ih : KeepsAll env s I T fuel)
    (hΓ : ∀ x ∈ Γ.locals, T x.type) {x : Name} {t t' m m' : Term} (ht : T t ∧ ∀ y, T (m.instantiate (.free y)))
    (ht' : T t' ∧ ∀ y, T (m'.instantiate (.free y))) :
    SolveM.Keeps I (do
      if ← env.unify s fuel next Γ t t' then
        let h := Local.new next x ((← get).instantiate t)
        env.unify s fuel (next + 1) (Γ.push h) (m.instantiate h.term) (m'.instantiate h.term)
      else return false) fun _ => True := by
  refine (ih.unify next Γ t t' hΓ ht.1 ht'.1).bind fun solved _ => ?_
  split
  · exact SolveM.Keeps.get.bind fun μ hμ =>
      ih.unify _ _ _ _ (Context.forall_type_push hΓ (h.instantiate hμ ht.1)) (ht.2 _) (ht'.2 _)
  · exact .pure trivial

/-- An abstraction and another term, which is applied to its variable. -/
lemma step_eta (ih : KeepsAll env s I T fuel) (hΓ : ∀ x ∈ Γ.locals, T x.type)
    {x : Name} {t m f : Term} (ht : T t ∧ ∀ y, T (m.instantiate (.free y))) (hf : T f) :
    SolveM.Keeps I (do
      let h := Local.new next x ((← get).instantiate t)
      env.unify s fuel (next + 1) (Γ.push h) (m.instantiate h.term) (f.app h.term)) fun _ => True :=
  SolveM.Keeps.get.bind fun _ hμ =>
    ih.unify _ _ _ _ (Context.forall_type_push hΓ (h.instantiate hμ ht.1)) (ht.2 _) (h.app.mpr ⟨hf, h.free _⟩)

lemma step_core (ih : KeepsAll env s I T fuel) (hΓ : ∀ x ∈ Γ.locals, T x.type)
    (ha : T a) (hb : T b) : SolveM.Keeps I (env.unifyCore s (fuel + 1) next Γ a b) fun _ => True := by
  unfold Env.unifyCore
  -- two sorts, two products, two abstractions, an abstraction on the left or on the right, and other terms
  split
  · exact Level.keeps_unify h.levels _ _ _
  · exact ih.step_binder h hΓ (h.pi ha) (h.pi hb)
  · exact ih.step_binder h hΓ (h.lam ha) (h.lam hb)
  · exact ih.step_eta h hΓ (h.lam ha) hb
  · exact ih.step_eta h hΓ (h.lam hb) ha
  · refine (SolveM.Keeps.orRestore (ih.spines next Γ a b hΓ ha hb)).bind fun solved _ => ?_
    split
    · exact .pure trivial
    -- the spines differ, so that one side or both are unfolded
    have hunfold : ∀ (m : Term) (c : Prop) [Decidable c], T m →
        T ((if c then env.unfoldHead? m else none).getD m) := by
      intro m c _ hm
      cases hif : if c then env.unfoldHead? m else none with
      | none => exact hm
      | some m' =>
        split at hif
        · exact h.steps (steps_of_unfoldHead? hif) hm
        · simp at hif
    exact .ite (fun _ => .pure trivial) fun _ => ih.unify next Γ _ _ hΓ (hunfold a _ ha) (hunfold b _ hb)

lemma step_spines (ih : KeepsAll env s I T fuel) (hΓ : ∀ x ∈ Γ.locals, T x.type)
    (ha : T a) (hb : T b) : SolveM.Keeps I (env.unifySpines s (fuel + 1) next Γ a b) fun _ => True := by
  unfold Env.unifySpines
  split
  · exact .pure trivial
  refine (keeps_unifyHeads h.levels fuel _ _).bind fun solved _ => ?_
  split
  · exact .allPairs fun x hx y hy => ih.unify next Γ x y hΓ (h.args ha x hx) (h.args hb y hy)
  · exact .pure trivial

lemma step_solve (ih : KeepsAll env s I T fuel) (hΓ : ∀ x ∈ Γ.locals, T x.type)
    {pattern m : Term} (hpattern : T pattern) (hm : T m) :
    SolveM.Keeps I (env.solve? s (fuel + 1) next Γ pattern m) fun _ => True := by
  unfold Env.solve?
  refine SolveM.Keeps.get.bind fun μ hμ => ?_
  split
  · rename_i g spine hsolvable
    refine (SolveM.Keeps.lift fun r hr => hr).bind fun r hopened => ?_
    split
    · rename_i extra type
      have hopens : env.OpensPattern s μ fuel next pattern m g spine extra type :=
        ⟨solvable_of_solvable? hsolvable, hopened⟩
      refine (SolveM.Keeps.lift fun r hr => hr).bind fun r hr => ?_
      split
      · exact .pure trivial
      refine (ih.unify _ Γ _ _ hΓ (h.typeOf hμ hΓ hm hr) (h.expected hμ hpattern hm hopens)).bind fun solved _ => ?_
      split
      · exact .pure trivial
      -- the types have been unified, which may have solved the hole
      refine .get_bind fun ν hν answer ν' hrun => ?_
      split at hrun
      · exact SolveM.Keeps.bind (R := fun _ => True) (ih.unify _ Γ _ _ hΓ hpattern hm) (fun _ _ => .pure trivial)
          ν hν answer ν' hrun
      · rename_i hopen
        obtain ⟨-, rfl⟩ := Prod.mk.inj (Option.some.inj hrun)
        exact ⟨h.solve hμ hpattern hm hopens hν hopen, trivial⟩
    · exact .pure trivial
  · exact .pure trivial

end

end KeepsAll

lemma keepsAll (h : env.UnifiesWithin s I T) (fuel : Nat) : KeepsAll env s I T fuel := by
  induction fuel with
  | zero =>
    constructor <;> intros
    · unfold Env.unify; exact .failure
    · unfold Env.unifyCore; exact .failure
    · unfold Env.unifySpines; exact .failure
    · unfold Env.solve?; exact .failure
  | succ fuel ih =>
    exact ⟨fun _ _ _ _ hΓ ha hb => ih.step_unify h hΓ ha hb, fun _ _ _ _ hΓ ha hb => ih.step_core h hΓ ha hb,
      fun _ _ _ _ hΓ ha hb => ih.step_spines h hΓ ha hb, fun _ _ _ _ hΓ hp hm => ih.step_solve h hΓ hp hm⟩

lemma keeps_unify (h : env.UnifiesWithin s I T) {fuel next : Nat} {Γ : Context} {a b : Term}
    (hΓ : ∀ x ∈ Γ.locals, T x.type) (ha : T a) (hb : T b) :
    SolveM.Keeps I (env.unify s fuel next Γ a b) fun _ => True :=
  (h.keepsAll fuel).unify next Γ a b hΓ ha hb

end UnifiesWithin

end Env

end ProofAssistant
