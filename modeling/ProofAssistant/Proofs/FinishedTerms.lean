import Mathlib
import ProofAssistant.Proofs.TacticAlphabet

/-!
# Finished terms

What `Elaborator.finish` lets through: `Elaborated.Finished` collects it for one term, and
`Elaborator.keeps_finish` proves it together with the alphabet. A term that the kernel accepts has no holes
(`Env.Infers.hasHole_eq_false`), but its type is only compared: a deferred hole stays in a type if reduction
drops it.
-/

namespace ProofAssistant

open Elaborator FreshM Term List Alphabet Nat Env

variable {A : Alphabet} {μ₀ : Metas}
variable {r : Elaborated} {env : Env} {E : Elaborator} {s' : Supply}
variable {μ : Metas} {Γ : Context} {m : Term} {s : Supply}

/-! ## Holes in terms -/

namespace Term

variable {m : Term}

lemma hasHole_mapVars {var : Nat → Nat → Term} {free : Nat → Id → Term} (hvar : ∀ k i, (var k i).hasHole = false)
    (hfree : ∀ k x, (free k x).hasHole = false) (k : Nat) (m : Term) : (m.mapVars var free k).hasHole = m.hasHole := by
  induction m generalizing k with
  | var i => exact hvar k i
  | free x => exact hfree k x
  | app f a ihf iha => simp only [mapVars, hasHole, ihf, iha]
  | lam x t b iht ihb | pi x _ t b iht ihb => simp only [mapVars, hasHole, iht, ihb]
  | _ => rfl

lemma hasHole_instantiate_free (b : Term) (x : Id) : (b.instantiate (.free x)).hasHole = b.hasHole := by
  rw [instantiate, openAt_eq_mapVars]
  refine hasHole_mapVars (fun k i => ?_) (fun _ _ => rfl) 0 b
  rcases lt_trichotomy i k with hi | rfl | hi
  · rw [openVar_of_lt hi, hasHole]
  · simp [openVar, mapVars, hasHole]
  · rw [openVar_of_le hi, hasHole]

lemma hasHole_mapLevels (f : Level → Level) (m : Term) : (m.mapLevels f).hasHole = m.hasHole := by
  induction m with
  | app g a ihg iha => simp only [mapLevels, hasHole, ihg, iha]
  | lam x t b iht ihb | pi x _ t b iht ihb => simp only [mapLevels, hasHole, iht, ihb]
  | _ => rfl

lemma hasHole_metas_instantiate (h : m.hasHole = false) : (μ.instantiate m).hasHole = false := by
  unfold Metas.instantiate
  dsimp only
  rw [resolveHoles_of_hasHole h]
  split
  · exact h
  · rw [hasHole_mapLevels, h]

lemma hasHole_eq_false_of_holeOccurrences (h : m.holeOccurrences = []) : m.hasHole = false := by
  refine (leafwise_holeOccurrences fun _ => False).imp leafwise_hasHole (fun _ m hleaf h => ?_) (k := 0) (by simp [h])
  cases m <;> simp_all [IsLeaf, holeOccurrences, hasHole]

lemma hasHole_eq_false_of_holes (h : m.holes = []) : m.hasHole = false := by
  suffices ∀ ps seen : List (Id × Bool),
      ps.foldl (fun seen h => if seen.any (·.1 == h.1) then seen else seen ++ [h]) seen = [] →
        seen = [] ∧ ps = [] from hasHole_eq_false_of_holeOccurrences (this _ [] h).2
  intro ps
  induction ps with
  | nil => exact fun seen hseen => ⟨hseen, rfl⟩
  | cons p ps ih =>
    intro seen hseen
    -- the hole is listed already or it is added, so the list is not empty
    have hnil := (ih _ hseen).1
    dsimp only at hnil
    split at hnil
    · subst hnil
      simp at *
    · simp at hnil

lemma over_of_hasHole (hconst : ∀ c, A.const c) (hfamily : ∀ t, A.family t) (h : m.hasHole = false) : m.Over A := by
  refine leafwise_hasHole.imp (leafwise_over A) (fun _ m hleaf h => ?_) (k := 0) h
  cases m <;> simp_all [IsLeaf, Over, hasHole]

lemma leafwise_freeBound (n : Nat) : Leafwise fun _ m => m.freeBound ≤ n := by
  have hfold : ∀ k m, freeBound m = m.foldLeaves max (fun _ => freeBound) k := by
    refine eq_foldLeaves_of_flag (max_self 0) leafwise_hasFree (fun l _ h => ?_) fun k m => ?_
    · unfold freeBound
      simp [h]
    · cases m <;> rfl
  constructor <;> intros <;> rw [hfold 0, foldLeaves, ← hfold, ← hfold] <;> exact Nat.max_le

lemma in_freeBound {n k : Nat} (h : m.freeBound ≤ n) (hk : m.looseBound ≤ k) :
    m.In { free := fun x => x.number < n } k := by
  refine ((leafwise_freeBound n).and leafwise_looseBound).imp (leafwise_in _) (fun k m hleaf h => ?_) ⟨h, hk⟩
  cases m <;> simp_all [IsLeaf, In, freeBound, hasFree, looseBound]

end Term

lemma Env.Infers.hasHole_eq_false {ps : List Name} {next : Nat} {T : Term}
    (h : env.Infers ps next Γ m T) : m.hasHole = false := by
  induction h with
  | app _ _ _ _ ihf iha => rw [hasHole, ihf, iha]; rfl
  | lam _ _ _ iht ihb | pi _ _ _ _ iht ihb =>
    rw [Local.term, hasHole_instantiate_free] at ihb
    rw [hasHole, iht, ihb]
    rfl
  | _ => rfl

/-! ## Terms without deferred holes -/

/-- No hole is deferred, and none is older than `start`. -/
def Alphabet.undeferred (start : Nat) : Alphabet where
  hole h := start ≤ h.number
  deferred := False
  start := start
  new_hole _ h := h

/-- Declarations have no holes: only names matter. -/
lemma Alphabet.coversEnv_of_reachable (henv : Env.Reachable env) (hconst : ∀ c, A.const c)
    (hfamily : ∀ t, A.family t) : A.CoversEnv env where
  terms hd _ m hm := over_of_hasHole hconst hfamily
    (((scoped_of_reachable henv).terms _ (mem_of_find?_eq_some hd) m hm).hasHole_eq_false fun _ h => h)
  ctors ht _ k hk := over_of_hasHole hconst hfamily
    (((scoped_of_reachable henv).ctors _ _ ht k hk).hasHole_eq_false fun _ h => h)

/-- Neither has a proof that the kernel has accepted. -/
lemma Alphabet.covers_of_reachable (hE : Env.Reachable E.env) (hconst : ∀ c, A.const c)
    (hfamily : ∀ t, A.family t) : A.Covers E where
  toCoversEnv := coversEnv_of_reachable hE hconst hfamily
  family _ _ _ := hfamily _
  eliminates _ _ := ⟨hfamily _, hconst _⟩
  instances _ _ := hconst _
  rules _ := hconst _
  equality _ _ := hconst _
  deciders _ _ _ _ hchecked := by
    obtain ⟨_, _, hinfers, _⟩ := checks_of_check hchecked
    exact over_of_hasHole hconst hfamily hinfers.hasHole_eq_false

lemma Alphabet.covers_undeferred (start : Nat) (hE : Env.Reachable E.env) :
    (undeferred start).Covers E :=
  covers_of_reachable hE (fun _ => trivial) fun _ => trivial

/-! ## The end of elaboration -/

/-- What is known of a term that has been finished in `Γ`, at the given type. -/
structure Elaborated.Finished (E : Elaborator) (Γ : Context) (type : Term) (r : Elaborated) : Prop where
  obligations : E.options.allowDeferred = false → r.obligations = []
  term_levels : r.term.hasLevelMVar = false
  type_levels : r.type.hasLevelMVar = false
  /-- No hole in the type is open. -/
  deferred : ∀ p ∈ r.type.holes, p.2 = true
  type : ∃ μ : Metas, r.type = μ.instantiate type
  checked : ∃ next, Γ.bound ≤ next ∧ r.term.freeBound ≤ next ∧ r.type.freeBound ≤ next ∧
    (E.env.check E.levelParams E.fuel next Γ r.term r.type).Yields ()

namespace Elaborated.Finished

variable {E : Elaborator} {Γ : Context} {type : Term} {r : Elaborated}

lemma term_hasHole (h : r.Finished E Γ type) : r.term.hasHole = false := by
  obtain ⟨_, _, _, _, hchecked⟩ := h.checked
  obtain ⟨_, _, hinfers, _⟩ := checks_of_check hchecked
  exact hinfers.hasHole_eq_false

/-- The type has no holes if it was stated without. -/
lemma type_hasHole_of_stated (h : r.Finished E Γ type) (htype : type.hasHole = false) : r.type.hasHole = false := by
  obtain ⟨μ, hμ⟩ := h.type
  exact hμ ▸ hasHole_metas_instantiate htype

lemma type_hasHole_of_over (h : r.Finished E Γ type) (hover : r.type.Over A) (hA : ¬ A.deferred) :
    r.type.hasHole = false := by
  refine hasHole_eq_false_of_holes (eq_nil_iff_forall_not_mem.mpr fun p hp => ?_)
  exact hA ((hover.holes p hp).2.1 (h.deferred p hp))

end Elaborated.Finished

lemma Metas.Over.deferredGoals (hμ : μ.Over A) (hs : s.Stated A) (hm : m.Over A) :
    ∀ g ∈ μ.deferredGoals s m, g.Stated A := by
  intro g hg
  obtain ⟨⟨h, d⟩, hh, hg⟩ := mem_filterMap.mp hg
  dsimp only at hg
  split at hg
  · exact hμ.goalOf? hs ((hμ.instantiate hm).holes _ hh).1 hg
  · simp at hg

lemma Metas.Over.deferred_of_mem (hμ : μ.Over A) (hm : m.Over A) {g : Goal} (hg : g ∈ μ.deferredGoals s m) :
    A.deferred := by
  obtain ⟨⟨h, d⟩, hh, hg⟩ := mem_filterMap.mp hg
  dsimp only at hg
  split at hg
  · rename_i hd
    exact ((hμ.instantiate hm).holes _ hh).2.1 hd
  · simp at hg

/-- The type is over the alphabet, and so is the term if nothing was left out of it, or what stands for that is. -/
structure Elaborated.Over (A : Alphabet) (r : Elaborated) : Prop where
  type : r.type.Over A
  term : r.obligations = [] ∨ A.const deferredName → r.term.Over A
  deferred : r.obligations ≠ [] → A.deferred

namespace Elaborator

variable {E : Elaborator} {Γ : Context}
variable {m type : Term}

lemma keeps_fillDeferred (hm : m.Over A) {obligations : List Goal} (hobligations : ∀ g ∈ obligations, g.Stated A) :
    ElabM.Keeps (A.invariant μ₀) (E.fillDeferred m obligations) fun m' => A.const deferredName → m'.Over A := by
  unfold fillDeferred
  refine .guard (.fail _ _) fun _ => ?_
  refine (ElabM.Keeps.mapM (R := fun p : Id × Term => A.const deferredName → p.2.Over A) fun g hg => ?_).bind
    fun values hvalues => ?_
  · have hg := hobligations g hg
    refine ElabM.Keeps.get.bind fun μ _ => (keeps_sortOf _).bind fun l _ => .pure fun hA => ?_
    exact Term.Over.abs ⟨hA, hg.target⟩ hg.context
  · exact .pure fun hA => hm.resolveHoles fun h v hv => hvalues (h, v) (mem_of_lookup_eq_some hv) hA

lemma keeps_unusedNumber (Γ : Context) (m type : Term) :
    FreshM.Keeps (A.invariant μ₀) (unusedNumber Γ m type) fun n =>
      Γ.bound ≤ n ∧ m.freeBound ≤ n ∧ type.freeBound ≤ n := by
  refine FreshM.Keeps.next.bind fun next _ => .pure ?_
  have hmax : ∀ a b : Nat, Nat.max a b = max a b := fun _ _ => Eq.refl _
  simp only [hmax]
  omega

/-- A finished term and its type are over the alphabet, up to what has been put for deferred holes. -/
lemma keeps_finish_over (hE : A.Covers E) (hm : m.Over A) (htype : type.Over A) :
    ElabM.Keeps (A.invariant {}) (E.finish Γ m type) fun r => r.Over A ∧ r.Finished E Γ type := by
  refine (keeps_resolvePending hE fun _ => Eq.refl _).bind fun _ _ => ElabM.Keeps.get.bind fun μ hμ => ?_
  refine ElabM.Keeps.getSupply.bind fun s hs => ?_
  have hm := hμ.instantiate hm
  have htype := hμ.instantiate htype
  dsimp only
  split
  · exact .throw_bind _ _
  refine .guard .exhausted fun hopen => .guard (.fail _ _) fun hdeferred => ?_
  refine .ite_bind (R := fun m' => (μ.deferredGoals s (μ.instantiate m) = [] ∨ A.const deferredName) → m'.Over A)
    (fun _ => .pure fun _ => hm) (fun hne => ?_) fun m' hm' => ?_
  · refine (keeps_fillDeferred hm (hμ.deferredGoals hs.goals hm)).mono fun m' hm' hor => hm' (hor.resolve_left ?_)
    simpa using hne
  refine .guard (.fail _ _) fun hlevels => ?_
  refine (ElabM.Keeps.lift (keeps_unusedNumber Γ m' _)).bind fun next ⟨hΓ, hnext, hnext'⟩ => ?_
  refine (ElabM.Keeps.lift (FreshM.Keeps.ofTyping fun u hu => hu)).bind fun _ hchecked => ?_
  refine .pure ⟨⟨htype, hm', fun hne => ?_⟩, ?_⟩
  · obtain ⟨g, hg⟩ := exists_mem_of_ne_nil _ hne
    exact hμ.deferred_of_mem hm hg
  simp only [Bool.or_eq_true, not_or, Bool.not_eq_true] at hlevels
  refine ⟨fun hallow => ?_, hlevels.1, hlevels.2, fun p hp => ?_, ⟨μ, Eq.refl _⟩, next, hΓ, hnext, hnext', hchecked⟩
  · simpa [hallow] using hdeferred
  · simp only [any_eq_true, not_exists, not_and, Bool.not_eq_true, Bool.not_eq_false'] at hopen
    exact hopen p (mem_append_right _ hp)

lemma keeps_finish (hE : A.Covers E) (hA : E.options.allowDeferred = true → A.const deferredName) (hm : m.Over A)
    (htype : type.Over A) : ElabM.Keeps (A.invariant {}) (E.finish Γ m type) fun r =>
      (r.term.Over A ∧ r.type.Over A) ∧ r.Finished E Γ type := by
  refine (keeps_finish_over hE hm htype).mono fun r ⟨hover, hfinished⟩ => ⟨⟨hover.term ?_, hover.type⟩, hfinished⟩
  cases hallow : E.options.allowDeferred with
  | false => exact .inl (hfinished.obligations hallow)
  | true => exact .inr (hA hallow)

lemma finished_of_finish {r : Elaborated × Metas} (h : FreshM.Ends ((E.finish Γ m type).run μ) s r s') :
    r.1.Finished E Γ type :=
  (keeps_finish (covers_all 0 E) (fun _ => trivial) m.over_all type.over_all μ
    ⟨μ.over_all, .empty μ⟩ s (Supply.over_all (zero_le _)) r s' h).2.2.2

end Elaborator

/-! ## All ways to ask for a term -/

lemma FreshM.ends_fromStart {α : Type} {x : ElabM α} {a : α} :
    FreshM.Ends x.fromStart s a s' ↔ ∃ μ, FreshM.Ends (x.run {}) s (a, μ) s' := by
  simp only [ElabM.fromStart, StateT.run', ends_map, Prod.exists]
  constructor
  · rintro ⟨b, μ, h, rfl⟩
    exact ⟨μ, h⟩
  · rintro ⟨μ, h⟩
    exact ⟨a, μ, h, rfl⟩

namespace Elaborator

variable {E : Elaborator} {s s' : Supply}
variable {p : ProofState}

lemma root_of_startProof {target : Term} (h : FreshM.Ends (startProof Γ target) s p s') :
    p.root.context = Γ ∧ p.root.target = target := by
  obtain ⟨g, s₁, hg, hp⟩ := h.bind
  obtain ⟨rfl, -⟩ := hp.pure
  obtain ⟨rfl, -⟩ := Prod.mk.inj (ends_modifyGet.mp hg)
  exact ⟨Eq.refl _, Eq.refl _⟩

lemma root_of_runTactic {t : Tactic} {p' : ProofState} (h : FreshM.Ends (E.runTactic t p) s p' s') :
    p'.root = p.root := by
  obtain ⟨r, s₁, _, hp⟩ := h.bind
  obtain ⟨rfl, -⟩ := hp.pure
  exact Eq.refl _

lemma finished_of_qed (h : FreshM.Ends (E.qed p) s r s') :
    r.Finished E p.root.context p.root.target := by
  unfold qed at h
  split at h
  · obtain ⟨_, _, hfail, _⟩ := h.bind
    exact absurd hfail not_ends_throw
  · obtain ⟨r', hfinish, rfl⟩ := ends_map.mp h
    exact finished_of_finish hfinish

lemma type_over_of_finish (hE : A.Covers E) (hA : E.options.allowDeferred = true → A.const deferredName)
    (hs : s.Over A) {x : ElabM (Term × Term)}
    (hx : ElabM.Keeps (A.invariant {}) x fun r => r.1.Over A ∧ r.2.Over A)
    (h : FreshM.Ends (ElabM.fromStart do let (m, type) ← x; E.finish Γ m type) s r s') : r.type.Over A := by
  obtain ⟨μ, h⟩ := ends_fromStart.mp h
  have hkeeps : ElabM.Keeps (A.invariant {}) (do let (m, type) ← x; E.finish Γ m type) fun r => r.type.Over A :=
    hx.bind fun _ hm => (keeps_finish hE hA hm.1 hm.2).mono fun _ hr => hr.1.2
  exact (hkeeps {} ⟨⟨by simp, by simp⟩, .refl _⟩ s hs _ _ h).2.2

end Elaborator

/-- What is asked of the elaborator. -/
inductive Request where
  /-- A term for the expression, of the expected type if there is one. -/
  | term (Γ : Context) (e : Expr) (expected : Option Term)
  | type (Γ : Context) (e : Expr)
  | chain (Γ : Context) (start : Expr) (steps : List ChainStep)
  | proof (Γ : Context) (target : Term) (t : Tactic)
  /-- The end of a proof. -/
  | qed (p : ProofState)

namespace Request

/-- The context of the term asked for. -/
def context : Request → Context
  | .term Γ _ _ | .type Γ _ | .chain Γ _ _ | .proof Γ _ _ => Γ
  | .qed p => p.root.context

/-- The elaborator's answer. -/
def run (E : Elaborator) : Request → FreshM Elaborated
  | .term Γ e expected => E.elaborate Γ e expected
  | .type Γ e => E.elaborateType Γ e
  | .chain Γ start steps => E.elaborateChain Γ start steps
  | .proof Γ target t => E.prove Γ target t
  | .qed p => E.qed p

/-- The type is a sort, or it is given and has no holes. -/
def Stated : Request → Prop
  | .term _ _ (some t) | .proof _ t _ => t.hasHole = false
  | .type .. => True
  | .qed p => p.root.target.hasHole = false
  | .term _ _ none | .chain .. => False

/-- The type is read off what is over the alphabet. -/
def Inferred (A : Alphabet) : Request → Prop
  | .term Γ e none => Γ.Over A ∧ e.Over A
  | .chain Γ start steps => Γ.Over A ∧ start.Over A ∧ ∀ s ∈ steps, s.Over A
  | _ => False

variable {E : Elaborator} {q : Request} {s s' : Supply} {r : Elaborated}

lemma finished_of_run (h : FreshM.Ends (q.run E) s r s') :
    ∃ type, r.Finished E q.context type ∧ (q.Stated → type.hasHole = false) := by
  cases q with
  | term Γ e expected =>
    obtain ⟨μ, h⟩ := ends_fromStart.mp h
    cases expected with
    | some type =>
      rw [StateT.run_bind, ends_bind] at h
      obtain ⟨⟨m, _⟩, _, _, h⟩ := h
      exact ⟨type, finished_of_finish h, fun h => h⟩
    | none =>
      rw [StateT.run_bind, ends_bind] at h
      obtain ⟨⟨⟨m, type⟩, _⟩, _, _, h⟩ := h
      exact ⟨type, finished_of_finish h, fun h => h.elim⟩
  | type Γ e =>
    obtain ⟨μ, h⟩ := ends_fromStart.mp h
    rw [StateT.run_bind, ends_bind] at h
    obtain ⟨⟨⟨m, l⟩, _⟩, _, _, h⟩ := h
    exact ⟨.sort l, finished_of_finish h, fun _ => rfl⟩
  | chain Γ start steps =>
    obtain ⟨μ, h⟩ := ends_fromStart.mp h
    rw [StateT.run_bind, ends_bind] at h
    obtain ⟨⟨⟨m, type⟩, _⟩, _, _, h⟩ := h
    exact ⟨type, finished_of_finish h, fun h => h.elim⟩
  | proof Γ target t =>
    obtain ⟨p, _, ⟨p₀, _, hstart, htactic⟩, hqed⟩ : ∃ p s₂, (∃ p₀ s₁, FreshM.Ends
        (startProof Γ target) s p₀ s₁ ∧ FreshM.Ends (E.runTactic t p₀) s₁ p s₂) ∧
        FreshM.Ends (E.qed p) s₂ r s' := by
      simp only [run, prove, ends_bind] at h
      grind
    obtain ⟨hcontext, htarget⟩ := root_of_startProof hstart
    rw [← root_of_runTactic htactic] at hcontext htarget
    refine ⟨p.root.target, hcontext ▸ finished_of_qed hqed, fun h => ?_⟩
    rwa [htarget]
  | qed p => exact ⟨p.root.target, finished_of_qed h, fun h => h⟩

lemma type_over_of_run (hE : A.Covers E) (hA : E.options.allowDeferred = true → A.const deferredName) (hs : s.Over A)
    (hq : q.Inferred A) (h : FreshM.Ends (q.run E) s r s') : r.type.Over A := by
  have hR := recursion_over hE E.fuel
  cases q with
  | term Γ e expected =>
    cases expected with
    | some => exact hq.elim
    | none =>
      exact type_over_of_finish hE hA hs (hR.visit hq.1 hq.2 (by simp)) h
  | chain Γ start steps =>
    exact type_over_of_finish hE hA hs (keeps_visitChain hE hR hq.1 hq.2.1 hq.2.2) h
  | _ => exact hq.elim

/-- With no deferral allowed nothing is left open: there are no obligations, no holes in the term and no undetermined
universes, and the kernel accepts the term. The holes of the type are deferred ones, and there are none if it is stated
without holes, or read off an expression that defers nothing. -/
theorem run_complete (hoptions : E.options.allowDeferred = false) (h : FreshM.Ends (q.run E) s r s') :
    r.obligations = [] ∧ r.term.hasHole = false ∧ r.term.hasLevelMVar = false ∧
      r.type.hasLevelMVar = false ∧
      (∃ next, q.context.bound ≤ next ∧ r.term.freeBound ≤ next ∧ r.type.freeBound ≤ next ∧
        (E.env.check E.levelParams E.fuel next q.context r.term r.type).Yields ()) ∧
      (∀ p ∈ r.type.holes, p.2 = true) ∧
      (q.Stated ∨ (Env.Reachable E.env ∧ (∀ g ∈ s.goals, g.id.number < s.next) ∧
        q.Inferred (.undeferred s.next)) → r.type.hasHole = false) := by
  obtain ⟨type, hfinished, hstated⟩ := finished_of_run h
  refine ⟨hfinished.obligations hoptions, hfinished.term_hasHole, hfinished.term_levels,
    hfinished.type_levels, hfinished.checked, hfinished.deferred, ?_⟩
  rintro (hq | ⟨hE, hgoals, hq⟩)
  · exact hfinished.type_hasHole_of_stated (hstated hq)
  · have hs : s.Over (.undeferred s.next) := by
      refine ⟨le_refl _, fun g hg hid => ?_, .inl trivial⟩
      -- the goals there are come before every new hole
      exact absurd (hgoals g hg) (not_lt.mpr hid)
    have hover := type_over_of_run (covers_undeferred s.next hE) (fun _ => trivial) hs hq h
    exact hfinished.type_hasHole_of_over hover id

/-- The identity on `Prop` has nothing left open. Nor has `Prop`, but its type as annotated drops a term left out, and
that hole stays. -/
theorem deferred_hole_in_annotation :
    let E : Elaborator := { env := {}, fuel := 8 }
    let type : Level := .succ .zero
    let identity : Request := .term {} (.app (.lam ⟨"x"⟩ (some (.sort type)) (.ident ⟨"x"⟩)) (.sort .zero)) none
    let annotated : Request :=
      .term {} (.annot (.sort .zero) (.app (.lam ⟨"x"⟩ (some (.sort type)) (.sort type)) .deferred)) none
    let r₁ : Elaborated := ⟨.app (.lam ⟨"x"⟩ (.sort type) (.var 0)) (.sort .zero), .sort type, []⟩
    let r₂ : Elaborated :=
      ⟨.sort .zero, .app (.lam ⟨"x"⟩ (.sort type) (.sort type)) (.hole ⟨1, none⟩ true), []⟩
    (FreshM.Ends (identity.run E) {} r₁ ⟨1, []⟩ ∧ r₁.type.hasHole = false) ∧
      FreshM.Ends (annotated.run E) {} r₂ ⟨2, [⟨⟨1, none⟩, {}, .sort type⟩]⟩ ∧
      (∀ p ∈ r₂.type.holes, p.2 = true) ∧ r₂.type.hasHole = true := by
  intro E type identity annotated r₁ r₂
  have h₁ : FreshM.Ends (identity.run E) {} r₁ ⟨1, []⟩ := by unfold FreshM.Ends Fueled.Yields; cbv
  have h₂ : FreshM.Ends (annotated.run E) {} r₂ ⟨2, [⟨⟨1, none⟩, {}, .sort type⟩]⟩ := by
    unfold FreshM.Ends Fueled.Yields; cbv
  have hidentity : identity.Inferred (.undeferred 0) := by
    refine ⟨fun x hx => absurd hx List.not_mem_nil, .app (.lam (fun t ht => ?_) (.ident trivial)) .sort⟩
    cases ht
    exact .sort
  have hcomplete := (run_complete rfl h₁).2.2.2.2.2.2 (.inr ⟨.refl, by simp, hidentity⟩)
  exact ⟨⟨h₁, hcomplete⟩, h₂, (run_complete rfl h₂).2.2.2.2.2.1, rfl⟩

end Request

end ProofAssistant
