import Mathlib.Data.List.Nodup
import Mathlib.Data.List.Perm.Subperm
import ProofAssistant.Proofs.ElaborationAlphabet

/-!
# Tactics stay over the alphabet

A tactic takes goals over an alphabet to goals over it. Tactics that elaborate nothing do so in one step: they solve the
first goal by means of new ones, which are all among the goals that are left (`ElabM.Refines`). With the steps for
expressions this closes the recursion (`Elaborator.recursion_over`).
-/

namespace ProofAssistant

open List FreshM Elaborator

variable {A : Alphabet} {n : Nat} {μ₀ : Metas}
variable {g : Goal} {t : Tactic} {rest goals' : List Goal} {k : Constructor} {count index fuel : Nat}
  {m' pattern : Term} {ks : List Constructor} {names : List Name}
variable {new : List Goal} {e : Expr}

/-! ## New numbers -/

/-- The identities are distinct, and their numbers lie from `n` on and below `n'`. -/
structure Id.Between (n n' : Nat) (ids : List Id) : Prop where
  nodup : ids.Nodup
  number : ∀ h ∈ ids, n ≤ h.number ∧ h.number < n'

namespace Id.Between

variable {n n' n'' : Nat} {ids ids' : List Id}

lemma nil (n n' : Nat) : Between n n' [] :=
  ⟨nodup_nil, by simp⟩

lemma append (h : Between n n' ids) (h' : Between n' n'' ids') (hn : n ≤ n') (hn' : n' ≤ n'') :
    Between n n'' (ids ++ ids') where
  nodup := by
    refine nodup_append.mpr ⟨h.nodup, h'.nodup, fun i hi j hj hij => ?_⟩
    have hi := (h.number i hi).2
    have hj := (h'.number j hj).1
    rw [hij] at hi
    omega
  number i hi := by
    rcases mem_append.mp hi with hi | hi
    · have hi := h.number i hi
      omega
    · have hi := h'.number i hi
      omega

lemma weaken (h : Between n n' ids) {i j : Nat} (hi : i ≤ n) (hj : n' ≤ j) : Between i j ids where
  nodup := h.nodup
  number x hx := ⟨Nat.le_trans hi (h.number x hx).1, Nat.lt_of_lt_of_le (h.number x hx).2 hj⟩

end Id.Between

namespace FreshM

variable {α : Type} {P : α → Prop} {x : FreshM α} {s s' : Supply}

lemma next_le_of_keeps (hx : Keeps ((Alphabet.all s.next).invariantFrom s.next {}) x P) {a : α}
    (h : x.Ends s a s') : s.next ≤ s'.next :=
  (hx s (Supply.over_all (Nat.le_refl _)) a s' h).1.start

lemma between_of_declare {Γ : Context} {t : Term} (h : (declare Γ t).Ends s g s') :
    s.next ≤ s'.next ∧ Id.Between s.next s'.next [g.id] := by
  obtain ⟨rfl, rfl⟩ := Prod.mk.inj (ends_modifyGet.mp h)
  exact ⟨Nat.le_succ _, nodup_singleton _, by simp⟩

end FreshM

/-- The goal as far as it is known. -/
def Goal.known (μ : Metas) (g : Goal) : Goal :=
  { g with
    target := μ.instantiate g.target
    context := ⟨g.context.locals.map fun h => { h with type := μ.instantiate h.type }⟩ }

namespace Elaborator

variable {E : Elaborator} {R : Recursion} {goals : List Goal}

/-! ## Goals of a step -/

lemma ends_mainGoal {r : Goal × List Goal} {X Y : Situation} :
    (mainGoal (g :: rest)).Ends X r Y ↔ (g.known X.metas, rest) = r ∧ X = Y := by
  simp only [mainGoal, instantiateGoal, ElabM.ends_bind, ElabM.ends_get, ElabM.ends_pure]
  constructor
  · rintro ⟨_, _, ⟨_, _, ⟨rfl, rfl⟩, rfl, rfl⟩, h⟩
    exact h
  · exact fun h => ⟨_, _, ⟨_, _, ⟨Eq.refl _, Eq.refl _⟩, Eq.refl _, Eq.refl _⟩, h⟩

lemma keeps_instantiateGoal (hg : g.Over A) :
    ElabM.Keeps (A.invariantFrom n μ₀) (instantiateGoal g) fun g' => g'.Over A ∧ g'.id = g.id := by
  refine ElabM.Keeps.get.bind fun μ hμ =>
    .pure ⟨⟨⟨fun x hx => ?_, hμ.instantiate hg.target⟩, hg.hole, hg.bare⟩, Eq.refl _⟩
  obtain ⟨y, hy, rfl⟩ := mem_map.mp hx
  exact hμ.instantiate (hg.context y hy)

lemma keeps_mainGoal (h : ∀ g ∈ goals, g.Over A) : ElabM.Keeps (A.invariantFrom n μ₀) (mainGoal goals) fun r =>
      r.1.Over A ∧ (∀ g ∈ r.2, g.Over A) ∧ ∃ g, goals = g :: r.2 ∧ g.id = r.1.id := by
  cases goals with
  | nil => exact .throw _
  | cons g goals =>
    rw [forall_mem_cons] at h
    exact (keeps_instantiateGoal h.1).bind fun g' ⟨hg', hid⟩ => .pure ⟨hg', h.2, g, Eq.refl _, hid.symm⟩

lemma keeps_prune (h : ∀ g ∈ goals, g.Over A) :
    ElabM.Keeps (A.invariantFrom n μ₀) (prune goals) fun goals => ∀ g ∈ goals, g.Over A :=
  ElabM.Keeps.get.bind fun _ _ => .pure fun g hg => h g (mem_of_mem_filter hg)

lemma ends_prune {X Y : Situation} :
    (prune goals).Ends X goals' Y ↔ goals.filter (!X.metas.isAssigned ·.id) = goals' ∧ X = Y := by
  simp only [prune, ElabM.ends_bind, ElabM.ends_get, ElabM.ends_pure]
  constructor
  · rintro ⟨_, _, ⟨rfl, rfl⟩, h⟩
    exact h
  · exact fun h => ⟨_, _, ⟨Eq.refl _, Eq.refl _⟩, h⟩

end Elaborator

/-- Every one of the goals has been solved or is among `goals'`. -/
def Metas.Accounts (μ : Metas) (goals goals' : List Goal) : Prop :=
  ∀ g ∈ goals, μ.isAssigned g.id = true ∨ ∃ g' ∈ goals', g'.id = g.id

lemma Metas.accounts_filter (μ : Metas) (goals : List Goal) :
    μ.Accounts goals (goals.filter (!μ.isAssigned ·.id)) := by
  intro g hg
  by_cases hsolved : μ.isAssigned g.id = true
  · exact .inl hsolved
  · exact .inr ⟨g, mem_filter.mpr ⟨hg, by simpa using hsolved⟩, rfl⟩

/-- What a step over the alphabet leaves. It may have declared the goals `new`, which are then left or solved, and all
is over the alphabet if it allows their holes. -/
structure Situation.Refined (A : Alphabet) (n : Nat) (μ₀ : Metas) (goals new goals' : List Goal)
    (Y : Situation) : Prop where
  accounts : Y.metas.Accounts (new ++ goals) goals'
  fresh : Id.Between n Y.supply.next (new.map Goal.id)
  left : (goals'.map Goal.id).Subperm (new.map Goal.id ++ goals.map Goal.id)
  opened : ∀ g ∈ goals', Y.metas.isAssigned g.id = false
  conforms : (∀ g ∈ new, A.bare g.id) →
    Y.supply.OverFrom A n ∧ Y.metas.OverSince A μ₀ ∧ ∀ g ∈ goals', g.Over A

/-- From situations over the alphabet, the step refines the goals. -/
def ElabM.Refines (A : Alphabet) (n : Nat) (μ₀ : Metas) (goals : List Goal) (x : ElabM (List Goal)) : Prop :=
  ∀ X : Situation, X.supply.OverFrom A n → X.metas.OverSince A μ₀ → ∀ goals' Y, x.Ends X goals' Y →
    ∃ new, Y.Refined A n μ₀ goals new goals'

namespace ElabM.Refines

variable {goals : List Goal}

/-- A step in which nothing is solved comes before the rest. -/
lemma bind {α : Type} {P : α → Prop} {x : ElabM α} {f : α → ElabM (List Goal)}
    (hx : ElabM.Keeps (A.invariantFrom n μ₀) x P) (hf : ∀ a, P a → (f a).Refines A n μ₀ goals) :
    (x >>= f).Refines A n μ₀ goals := by
  intro X hs hμ goals' Y h
  obtain ⟨a, Z, hxZ, hfY⟩ := h.bind
  obtain ⟨hs', hμ', ha⟩ := hx.of_ends hs hμ hxZ
  exact hf a ha Z hs' hμ' goals' Y hfY

lemma nil : (Pure.pure [] : ElabM (List Goal)).Refines A n μ₀ [] := by
  intro X hs hμ goals' Y hx
  obtain ⟨rfl, rfl⟩ := hx.pure
  exact ⟨[], by simp [Metas.Accounts], .nil _ _, .refl _, by simp, fun _ => ⟨hs, hμ, by simp⟩⟩

lemma throw (e : Failure) : (throw e : ElabM (List Goal)).Refines A n μ₀ goals :=
  fun _ _ _ _ _ h => absurd h ElabM.not_ends_throw

/-- New holes always belong to the alphabet from its start on. -/
lemma keeps {x : ElabM (List Goal)} (h : x.Refines A A.start μ₀ goals) :
    ElabM.Keeps (A.invariant μ₀) x fun goals => ∀ g ∈ goals, g.Over A := by
  refine .intro fun X hs hμ goals' Y hx => ?_
  obtain ⟨new, hnew⟩ := h X hs hμ goals' Y hx
  exact hnew.conforms fun g hg => A.new_bare g.id (hnew.fresh.number g.id (mem_map_of_mem hg)).1

end ElabM.Refines

namespace Elaborator

variable {E : Elaborator} {R : Recursion} {goals : List Goal}
variable {g : Goal}

/-- The end of a step: the first goal `g` is solved, and the new goals and the other ones are left. -/
lemma refined_of_solve {m : Metas → Term} {X Y : Situation}
    (hfirst : ∃ g₀, goals = g₀ :: rest ∧ g₀.id = g.id) (hn : ∀ h : Id, n ≤ h.number → A.hole h) (hg : g.Over A)
    (hrest : ∀ g' ∈ rest, g'.Over A) (hfresh : Id.Between n X.supply.next (new.map Goal.id))
    (hover : (∀ g' ∈ new, A.bare g'.id) → X.supply.OverFrom A n ∧ X.metas.OverSince A μ₀ ∧
      (m X.metas).Over A ∧ ∀ g' ∈ new, g'.Stated A)
    (h : ElabM.Ends (do modify fun μ => μ.assignGoal g (m μ); prune (new ++ rest)) X goals' Y) :
    Y.Refined A n μ₀ goals new goals' := by
  obtain ⟨g₀, rfl, hid⟩ := hfirst
  simp only [ElabM.ends_bind, ElabM.ends_modify, ends_prune] at h
  obtain ⟨_, _, rfl, rfl, rfl⟩ := h
  refine ⟨fun g' hg' => ?_, hfresh, ?_, fun g' hg' => by simpa using (mem_filter.mp hg').2, fun hbare => ?_⟩
  · have hleft := Metas.accounts_filter (X.metas.assignGoal g (m X.metas)) (new ++ rest)
    rcases mem_append.mp hg' with hg' | hg'
    · exact hleft g' (mem_append_left _ hg')
    rcases mem_cons.mp hg' with rfl | hg'
    · exact .inl (by simp [Metas.assignGoal, hid])
    · exact hleft g' (mem_append_right _ hg')
  · have hleft : (List.filter (!(X.metas.assignGoal g (m X.metas)).isAssigned ·.id) (new ++ rest)).Sublist
        (new ++ g₀ :: rest) :=
      filter_sublist.trans ((sublist_cons_self g₀ rest).append_left new)
    simpa using (hleft.map Goal.id).subperm
  · obtain ⟨hs, hμ, hm, hnew⟩ := hover hbare
    refine ⟨hs, hμ.assignGoal hg.toStated hm, fun g' hg' => ?_⟩
    rcases mem_append.mp (mem_of_mem_filter hg') with hg' | hg'
    · exact ⟨hnew g' hg', hn g'.id (hfresh.number g'.id (mem_map_of_mem hg')).1, hbare g' hg'⟩
    · exact hrest g' hg'

lemma refines_close {m : Metas → Term} (hfirst : ∃ g₀, goals = g₀ :: rest ∧ g₀.id = g.id)
    (hn : ∀ h : Id, n ≤ h.number → A.hole h) (hg : g.Over A) (hrest : ∀ g' ∈ rest, g'.Over A)
    (hm : ∀ μ : Metas, μ.OverSince A μ₀ → (m μ).Over A) :
    ElabM.Refines A n μ₀ goals (do modify fun μ => μ.assignGoal g (m μ); prune rest) := by
  intro X hs hμ goals' Y h
  exact ⟨[], refined_of_solve hfirst hn hg hrest (.nil _ _) (fun _ => ⟨hs, hμ, hm _ hμ, by simp⟩) h⟩

/-! ## Basic steps -/

section

variable (hE : A.Covers E)
include hE

lemma keeps_closeWith (hg : g.Over A) {m : Term} (hm : m.Over A) :
    ElabM.Keeps (A.invariant μ₀) (E.closeWith g m) fun _ => True :=
  (keeps_resolvePending hE (by simp)).bind fun _ _ =>
    .modify fun _ hμ => hμ.assignGoal hg.toStated (hμ.instantiate hm)

lemma refines_introOne (hn : ∀ h : Id, n ≤ h.number → A.hole h) (name : Option Name)
    (h : ∀ g ∈ goals, g.Over A) : (E.introOne name goals).Refines A n μ₀ goals := by
  refine .bind (keeps_mainGoal h) fun ⟨g, rest⟩ ⟨hg, hrest, hfirst⟩ => ?_
  refine .bind (keeps_whnf hE hg.target) fun target htarget => ?_
  split
  · refine .bind (.lift (keeps_assume _ htarget.1)) fun x hx X hs hμ goals' Y hend => ?_
    obtain ⟨g', Z, hdeclare, hend⟩ := hend.bind
    obtain ⟨hs', hμ', hg', hnumber⟩ := (ElabM.Keeps.lift (keeps_declareFrom (hg.context.push hx)
      (htarget.2.instantiate x.over_term))).of_ends hs hμ hdeclare
    have hfresh := (between_of_declare (ElabM.ends_lift.mp hdeclare).1).2.weaken hs.start (Nat.le_refl _)
    refine ⟨[g'], refined_of_solve hfirst hn hg hrest hfresh (fun hbare => ?_) hend⟩
    rw [forall_mem_singleton] at hbare ⊢
    have hg'' : g'.Over A := ⟨hg', hn g'.id hnumber, hbare⟩
    exact ⟨hs', hμ', hg''.openHole.abs (forall_mem_singleton.mpr hx), hg'⟩
  · exact .throw _

lemma keeps_intro (names : List Name) (h : ∀ g ∈ goals, g.Over A) :
    ElabM.Keeps (A.invariant μ₀) (E.intro names goals) fun goals => ∀ g ∈ goals, g.Over A := by
  unfold intro
  split
  · exact (refines_introOne hE A.new_hole none h).keeps
  · exact .foldlM h fun goals hgoals x _ =>
      (refines_introOne hE A.new_hole (some x) hgoals).keeps

lemma keeps_exact (hR : R.Over A) (he : e.Over A) (h : ∀ g ∈ goals, g.Over A) :
    ElabM.Keeps (A.invariant μ₀) (E.exact R e goals) fun goals => ∀ g ∈ goals, g.Over A := by
  refine (keeps_mainGoal h).bind fun ⟨g, rest⟩ ⟨hg, hrest, _⟩ => ?_
  refine (hR.visit hg.context he (by simpa using hg.target)).bind fun ⟨m, type⟩ ⟨hm, htype⟩ => ?_
  refine (keeps_unify hE hg.context htype hg.target).bind fun solved _ => ?_
  split
  · exact (ElabM.keeps_instantiate htype).bind fun _ _ => .throw_bind _ _
  refine (keeps_closeWith hE hg hm).bind fun _ _ => (keeps_newGoals hg.openHole).bind fun new hnew => ?_
  exact keeps_prune (forall_mem_append.mpr ⟨hnew, hrest⟩)

lemma keeps_applyArguments (hg : g.Over A) (fuel : Nat) {m type : Term} (hm : m.Over A)
    (htype : type.Over A) : ElabM.Keeps (A.invariant μ₀) (E.applyArguments g fuel m type) (Term.Over A) := by
  induction fuel generalizing m type with
  | zero => exact .exhausted
  | succ fuel ih =>
    refine (ElabM.Keeps.orRestore (keeps_unify hE hg.context htype hg.target)).bind fun solved _ => ?_
    split
    · exact .pure hm
    refine (keeps_whnf hE htype).bind fun type' htype' => ?_
    split
    · refine (keeps_newArgument hg.context htype'.1).bind fun a ha => ?_
      exact ih (hm.app ha) (htype'.2.instantiate ha)
    · exact (ElabM.keeps_instantiate htype).bind fun _ _ => .throw _

lemma keeps_apply (hR : R.Over A) (he : e.Over A) (h : ∀ g ∈ goals, g.Over A) :
    ElabM.Keeps (A.invariant μ₀) (E.apply R e goals) fun goals => ∀ g ∈ goals, g.Over A := by
  refine (keeps_mainGoal h).bind fun ⟨g, rest⟩ ⟨hg, hrest, _⟩ => ?_
  refine (hR.visit hg.context he (by simp)).bind fun ⟨m, type⟩ ⟨hm, htype⟩ => ?_
  refine (keeps_applyArguments hE hg E.fuel hm htype).bind fun m hm => ?_
  refine (keeps_closeWith hE hg hm).bind fun _ _ => (keeps_newGoals hg.openHole).bind fun new hnew => ?_
  exact keeps_prune (forall_mem_append.mpr ⟨hnew, hrest⟩)

lemma refines_assumption (hn : ∀ h : Id, n ≤ h.number → A.hole h)
    (h : ∀ g ∈ goals, g.Over A) : (E.assumption goals).Refines A n μ₀ goals := by
  unfold assumption
  split
  · rename_i hnil
    obtain rfl := isEmpty_iff.mp hnil
    exact .nil
  refine .bind (keeps_mainGoal h) fun ⟨g, rest⟩ ⟨hg, hrest, hfirst⟩ => ?_
  refine .bind (keeps_findHypothesis hE hg.context hg.target) fun found _ => ?_
  cases found with
  | none => exact .throw _
  | some x => exact refines_close hfirst hn hg hrest fun _ _ => x.over_term

end

lemma refines_defer (hA : A.deferred) (hn : ∀ h : Id, n ≤ h.number → A.hole h)
    (h : ∀ g ∈ goals, g.Over A) : (defer goals).Refines A n μ₀ goals := by
  refine .bind (keeps_mainGoal h) fun ⟨g, rest⟩ ⟨hg, hrest, hfirst⟩ => ?_
  refine .bind (ElabM.keeps_newDeferred hA hn hg.context hg.target) fun m hm => ?_
  exact refines_close hfirst hn hg hrest fun _ _ => hm

lemma over_rule (hE : A.Covers E) (e : Equation) {c : String} (hc : c ∈ ["Eq.refl", "Eq.symm", "Eq.subst"])
    {as : List Term} (has : ∀ a ∈ as, a.Over A) : ((e.rule c).apply as).Over A :=
  Term.over_apply.mpr ⟨hE.equality c hc, has⟩

lemma refines_rfl (hE : A.Covers E) (hn : ∀ h : Id, n ≤ h.number → A.hole h) (h : ∀ g ∈ goals, g.Over A) :
    (E.rfl goals).Refines A n μ₀ goals := by
  refine .bind (keeps_mainGoal h) fun ⟨g, rest⟩ ⟨hg, hrest, hfirst⟩ => ?_
  refine .bind (keeps_whnf hE hg.target) fun target htarget => ?_
  split
  · rename_i e he
    obtain ⟨htype, hlhs, hrhs⟩ := htarget.equation? he
    refine .bind (keeps_unify hE hg.context hlhs hrhs) fun solved _ => ?_
    split
    · exact .bind (P := fun _ => False) (.throw _) fun _ hfalse => hfalse.elim
    have hrefl : e.refl.Over A := over_rule hE e (by simp) (by simp [htype, hlhs])
    exact refines_close hfirst hn hg hrest fun _ hμ => hμ.instantiate hrefl
  · exact .throw _

lemma keeps_decideBy (hE : A.Covers E) (hg : g.Over A) {ds : List Decider} (hds : ds ⊆ E.deciders) :
    FreshM.Keeps (A.invariantFrom n μ₀) (E.decideBy g ds) fun r => ∀ m ∈ r, m.Over A := by
  induction ds with
  | nil => exact .pure (by simp)
  | cons d ds ih =>
    have hrest := ih fun d' hd' => hds (mem_cons_of_mem d hd')
    refine FreshM.Keeps.next.bind fun next _ => ?_
    refine (FreshM.Keeps.ofOption fun r hr => hr).bind fun r hr => ?_
    split
    · exact hrest
    refine (FreshM.Keeps.ofOption fun r hr => hr).bind fun r hchecked => ?_
    split
    · exact .pure fun m hm => Option.some.inj hm ▸
        hE.deciders (hds mem_cons_self) hg.context hg.target hr hchecked
    · exact hrest

lemma refines_decide (hE : A.Covers E) (hn : ∀ h : Id, n ≤ h.number → A.hole h)
    (h : ∀ g ∈ goals, g.Over A) : (E.decide goals).Refines A n μ₀ goals := by
  refine .bind (keeps_mainGoal h) fun ⟨g, rest⟩ ⟨hg, hrest, hfirst⟩ => ?_
  dsimp only
  split
  · refine .bind (.pure (Eq.refl none)) fun proof hproof => ?_
    subst hproof
    exact .throw _
  refine .bind (.lift (keeps_decideBy hE hg (List.Subset.refl _))) fun proof hproof => ?_
  cases proof with
  | none => exact .throw _
  | some m =>
    have hm : m.Over A := hproof m (by simp)
    exact refines_close hfirst hn hg hrest fun _ _ => hm

end Elaborator

/-! ## Inductive types -/

/-- The parameters, the constructors and the recursor of an inductive type are over the alphabet. -/
structure FamilyInstance.Over (A : Alphabet) (T : FamilyInstance) : Prop where
  family : A.family T.family.name
  recursor : A.const T.family.recursor
  params : ∀ p ∈ T.params, p.Over A
  ctors : ∀ k ∈ T.family.ctors, k.type.Over A

namespace FamilyInstance.Over

variable {T : FamilyInstance}

lemma construct (hT : T.Over A) (index : Nat) (k : Constructor) {fields : List Term}
    (hfields : ∀ a ∈ fields, a.Over A) : (T.construct index k fields).Over A :=
  Term.over_apply.mpr ⟨hT.family, forall_mem_append.mpr ⟨hT.params, hfields⟩⟩

lemma eliminate (hT : T.Over A) (levels : List Level) {motive major : Term} {minors further : List Term}
    (hmotive : motive.Over A) (hminors : ∀ m ∈ minors, m.Over A) (hmajor : major.Over A)
    (hfurther : ∀ m ∈ further, m.Over A) : (T.eliminate levels motive minors major further).Over A := by
  refine Term.over_apply.mpr ⟨hT.recursor, ?_⟩
  simp only [forall_mem_append, forall_mem_singleton]
  exact ⟨⟨⟨⟨hT.params, hmotive⟩, hminors⟩, hmajor⟩, hfurther⟩

end FamilyInstance.Over

lemma over_applyType {env : Env} (hA : A.CoversEnv env) {args : List Term}
    (hargs : ∀ a ∈ args, a.Over A) {type type' : Term} (htype : type.Over A)
    (h : env.applyType fuel args type = some type') : type'.Over A := by
  induction args generalizing type with
  | nil => exact Option.some.inj h ▸ htype
  | cons a args ih =>
    rw [forall_mem_cons] at hargs
    obtain ⟨type₁, hwhnf, h⟩ := Option.bind_eq_some_iff.mp h
    have htype₁ := hA.whnf hwhnf htype
    split at h
    · exact ih hargs.2 (htype₁.2.instantiate hargs.1) h
    · exact ih hargs.2 htype h

namespace Elaborator

variable {E : Elaborator} {R : Recursion} {goals : List Goal}
variable {type m : Term} {T : FamilyInstance} {Γ : Context} {e : Elimination} {es : List Expr}

lemma over_familyOf? (hE : A.Covers E) {μ : Metas} (hμ : μ.Over A) (htype : type.Over A)
    (h : E.env.familyOf? μ E.fuel type = some (some T)) : T.Over A := by
  obtain ⟨type', hwhnf, h⟩ := Option.bind_eq_some_iff.mp h
  obtain ⟨hhead, hargs⟩ := (hE.whnfOf hμ hwhnf htype).head_args
  split at h
  · rename_i c levels hc
    rw [hc] at hhead
    split at h
    · rename_i t ht
      split at h
      · obtain rfl := Option.some.inj (Option.some.inj h)
        obtain ⟨hfamily, hrecursor⟩ := hE.eliminates ht hhead
        exact ⟨(Env.name_of_inductive? ht).2 ▸ hfamily, hrecursor, hargs, hE.ctors ht hfamily⟩
      · simp at h
    · simp at h
  · simp at h

lemma keeps_familyOf? (hE : A.Covers E) (htype : type.Over A) :
    ElabM.Keeps (A.invariantFrom n μ₀) (E.familyOf? type) fun r => ∀ T ∈ r, T.Over A := by
  refine ElabM.Keeps.get.bind fun μ hμ => .lift (.ofOption fun r hr T hT => ?_)
  rw [Option.mem_def.mp hT] at hr
  exact over_familyOf? hE hμ.toOver htype hr

lemma keeps_fieldsType (hE : A.Covers E) (hT : T.Over A) (hk : k ∈ T.family.ctors) :
    FreshM.Keeps (A.invariantFrom n μ₀) (ofOption (E.env.fieldsType E.fuel T k)) (Term.Over A) :=
  .ofOption fun _ h =>
    over_applyType hE.toCoversEnv hT.params ((Term.over_instantiateLevelParams ..).mpr (hT.ctors k hk)) h

lemma between_of_openGoals {s s' : Supply} (h : (openGoals Γ count m type).Ends s (some (m', new)) s') :
    s.next ≤ s'.next ∧ Id.Between s.next s'.next (new.map Goal.id) := by
  fun_induction openGoals Γ count m type generalizing s m' new with
  | case1 m =>
    obtain ⟨heq, rfl⟩ := h.pure
    obtain ⟨-, rfl⟩ := Prod.mk.inj (Option.some.inj heq)
    exact ⟨Nat.le_refl _, .nil _ _⟩
  | case2 count m x i t b ih =>
    obtain ⟨g, s₁, hdeclare, h⟩ := h.bind
    obtain ⟨r, s₂, hrest, h⟩ := h.bind
    obtain ⟨hs₁, hg⟩ := between_of_declare hdeclare
    cases r with
    | none => simp at h
    | some r =>
      obtain ⟨heq, rfl⟩ := h.pure
      obtain ⟨rfl, rfl⟩ := Prod.mk.inj (Option.some.inj heq)
      obtain ⟨hs₂, hnew⟩ := ih g hrest
      exact ⟨Nat.le_trans hs₁ hs₂, hg.append hnew hs₁ hs₂⟩
  | case3 => simp at h

/-- Later fields may depend on earlier ones, so that the holes of these occur in the goals of those. -/
lemma over_openGoals (hn : ∀ h : Id, n ≤ h.number → A.hole h) (hΓ : Γ.Over A)
    {s s' : Supply} (hm : m.Over A) (htype : type.Over A) (hs : s.OverFrom A n)
    (h : (openGoals Γ count m type).Ends s (some (m', new)) s') (hbare : ∀ g ∈ new, A.bare g.id) :
    s'.OverFrom A n ∧ m'.Over A ∧ ∀ g ∈ new, g.Stated A := by
  fun_induction openGoals Γ count m type generalizing s m' new with
  | case1 m =>
    obtain ⟨heq, rfl⟩ := h.pure
    obtain ⟨rfl, rfl⟩ := Prod.mk.inj (Option.some.inj heq)
    exact ⟨hs, hm, forall_mem_nil _⟩
  | case2 count m x i t b ih =>
    obtain ⟨g, s₁, hdeclare, h⟩ := h.bind
    obtain ⟨r, s₂, hrest, h⟩ := h.bind
    have hdeclares : FreshM.Keeps (A.invariantFrom n {}) (declare Γ t) _ :=
      keeps_declareFrom hΓ htype.1
    obtain ⟨hs₁, hg, hnumber⟩ := hdeclares s hs g s₁ hdeclare
    cases r with
    | none => simp at h
    | some r =>
      obtain ⟨heq, rfl⟩ := h.pure
      obtain ⟨rfl, rfl⟩ := Prod.mk.inj (Option.some.inj heq)
      rw [forall_mem_cons] at hbare
      have hhole : g.hole.Over A := Goal.Over.openHole ⟨hg, hn g.id hnumber, hbare.1⟩
      obtain ⟨hs', hm', hnew⟩ := ih g (hm.app hhole) (htype.2.instantiate hhole) hs₁ hrest hbare.2
      exact ⟨hs', hm', forall_mem_cons.mpr ⟨hg, hnew⟩⟩
  | case3 => simp at h

lemma refines_split (hE : A.Covers E) (hn : ∀ h : Id, n ≤ h.number → A.hole h) (h : ∀ g ∈ goals, g.Over A) :
    (E.split goals).Refines A n μ₀ goals := by
  refine .bind (keeps_mainGoal h) fun ⟨g, rest⟩ ⟨hg, hrest, hfirst⟩ => ?_
  refine .bind (keeps_familyOf? hE hg.target) fun T hT => ?_
  cases T with
  | none => exact .throw _
  | some T =>
    have hT := hT T (by simp)
    dsimp only
    split
    · rename_i k hk
      refine .bind (.lift (keeps_fieldsType hE hT (by simp [hk]))) fun type htype => ?_
      intro X hs hμ goals' Y hend
      obtain ⟨r, Z, hopen, hend⟩ := hend.bind
      obtain ⟨hopen, hmetas⟩ := ElabM.ends_lift.mp hopen
      cases r with
      | none => exact absurd hend ElabM.not_ends_throw
      | some r =>
        have hfresh := (between_of_openGoals hopen).2.weaken hs.start (Nat.le_refl _)
        refine ⟨r.2, refined_of_solve hfirst hn hg hrest hfresh (fun hbare => ?_) hend⟩
        obtain ⟨hs', hm, hnew⟩ :=
          over_openGoals hn hg.context (hT.construct 0 k (by simp)) htype hs hopen hbare
        exact ⟨hs', hmetas ▸ hμ, hm, hnew⟩
    · exact .throw _

lemma keeps_openFields (name : Name → Name) (count : Nat) (names : List Name) (htype : type.Over A) :
    FreshM.Keeps (A.invariantFrom n μ₀) (openFields name count names type) fun r => ∀ x ∈ r.1, x.type.Over A := by
  fun_induction openFields name count names type with
  | case1 names count x i t b ih =>
    refine (keeps_assume _ htype.1).bind fun h hh => ?_
    refine (ih h (htype.2.instantiate h.over_term)).bind fun ⟨hs, _⟩ hhs => ?_
    exact .pure (forall_mem_cons.mpr ⟨hh, hhs⟩)
  | case2 => exact .pure (by simp)

lemma keeps_openHypotheses {motive : Term → Term} (hmotive : ∀ m, m.Over A → (motive m).Over A)
    (single : Bool) (names : List Name) (fields : List Local) :
    FreshM.Keeps (A.invariantFrom n μ₀) (openHypotheses motive single names fields) fun r =>
      ∀ x ∈ r.1, x.type.Over A := by
  fun_induction openHypotheses motive single names fields with
  | case1 => exact .pure (by simp)
  | case2 names x xs name ih =>
    refine (keeps_assume _ (hmotive _ x.over_term)).bind fun h hh => ?_
    exact ih.bind fun ⟨hs, _⟩ hhs => .pure (forall_mem_cons.mpr ⟨hh, hhs⟩)

lemma keeps_replaceLocals {values : List (Id × Term)} (hvalues : ∀ p ∈ values, p.2.Over A)
    {hs : List Local} (hhs : ∀ x ∈ hs, x.type.Over A) :
    FreshM.Keeps (A.invariantFrom n μ₀) (replaceLocals values hs) fun r =>
      (∀ x ∈ r.1, x.type.Over A) ∧ ∀ p ∈ r.2, p.2.Over A := by
  induction hs generalizing values with
  | nil => exact .pure ⟨by simp, hvalues⟩
  | cons h hs ih =>
    rw [forall_mem_cons] at hhs
    refine (keeps_assume _ (hhs.1.subst hvalues)).bind fun h' hh' => ?_
    have hvalues' : ∀ p ∈ values ++ [(h.id, h'.term)], p.2.Over A :=
      forall_mem_append.mpr ⟨hvalues, forall_mem_singleton.mpr h'.over_term⟩
    refine (ih hvalues' hhs.2).bind fun ⟨hs', values'⟩ ⟨hhs', hv⟩ => ?_
    exact .pure ⟨forall_mem_cons.mpr ⟨hh', hhs'⟩, hv⟩

/-- The goal, the hypothesis and its dependents are over the alphabet. -/
structure Elimination.Over (A : Alphabet) (e : Elimination) : Prop where
  goal : e.goal.Over A
  major : e.major.type.Over A
  dependents : ∀ x ∈ e.dependents, x.type.Over A

lemma Elimination.Over.statement (he : e.Over A) : e.statement.Over A :=
  he.goal.target.pis he.dependents

lemma keeps_eliminateCase (hE : A.Covers E) (hn : ∀ h : Id, n ≤ h.number → A.hole h) (he : e.Over A) (hT : T.Over A)
    (index : Nat) (hk : k ∈ T.family.ctors) (names : List Name) :
    FreshM.Keeps (A.invariantFrom n μ₀) (E.eliminateCase e T index k names) fun r =>
      (r.1.Stated A ∧ n ≤ r.1.id.number) ∧ (A.bare r.1.id → r.2.1.Over A) := by
  refine (keeps_fieldsType hE hT hk).bind fun type htype => ?_
  refine (keeps_openFields _ _ _ htype).bind fun ⟨fields, names⟩ hfields => ?_
  have hmotive : ∀ m : Term, m.Over A → (e.statement.subst [(e.major.id, m)]).Over A := fun m hm =>
    he.statement.subst (forall_mem_singleton.mpr hm)
  refine (keeps_openHypotheses hmotive _ _ _).bind fun ⟨ihs, left⟩ hihs => ?_
  have hterms : ∀ m ∈ fields.map Local.term, m.Over A := fun m hm => by
    obtain ⟨x, _, rfl⟩ := mem_map.mp hm
    exact x.over_term
  refine (keeps_replaceLocals (forall_mem_singleton.mpr (hT.construct index k hterms))
    he.dependents).bind fun ⟨deps, values⟩ ⟨hdeps, hvalues⟩ => ?_
  have hkept : e.kept.Over A := fun x hx => he.goal.context x (mem_of_mem_filter hx)
  refine (keeps_declareFrom (hkept.pushAll ?_) (he.goal.target.subst hvalues)).bind fun g hg => ?_
  · simp only [forall_mem_append]
    refine ⟨⟨hfields, ?_⟩, hdeps⟩
    split
    · exact hihs
    · simp
  · refine .pure ⟨hg, fun hbare => ?_⟩
    have hhole : g.hole.Over A := Goal.Over.openHole ⟨hg.1, hn g.id hg.2, hbare⟩
    exact hhole.abs (by simp only [forall_mem_append]; exact ⟨⟨hfields, hihs⟩, hdeps⟩)

lemma keeps_eliminateCases (hE : A.Covers E) (hn : ∀ h : Id, n ≤ h.number → A.hole h) (he : e.Over A)
    (hT : T.Over A) (index : Nat) (names : List Name) (hks : ∀ k ∈ ks, k ∈ T.family.ctors) :
    FreshM.Keeps (A.invariantFrom n μ₀) (E.eliminateCases e T index names ks) fun r =>
      (∀ g ∈ r.1, g.Stated A ∧ n ≤ g.id.number) ∧ ((∀ g ∈ r.1, A.bare g.id) → ∀ m ∈ r.2, m.Over A) := by
  induction ks generalizing index names with
  | nil => exact .pure (by simp)
  | cons k ks ih =>
    rw [forall_mem_cons] at hks
    refine (keeps_eliminateCase hE hn he hT index hks.1 names).bind fun ⟨g, minor, names⟩ ⟨hg, hminor⟩ => ?_
    refine (ih (index + 1) names hks.2).bind fun ⟨gs, minors⟩ ⟨hgs, hminors⟩ => ?_
    refine .pure ⟨forall_mem_cons.mpr ⟨hg, hgs⟩, fun hbare => forall_mem_cons.mpr ?_⟩
    exact ⟨hminor (hbare g mem_cons_self), hminors fun g' hg' => hbare g' (mem_cons_of_mem g hg')⟩

lemma between_of_eliminateCase {s s' : Supply}
    {r : Goal × Term × List Name} (h : (E.eliminateCase e T index k names).Ends s r s') :
    s.next ≤ s'.next ∧ Id.Between s.next s'.next [r.1.id] := by
  obtain ⟨type, s₁, htype, h⟩ := h.bind
  obtain ⟨⟨fields, names₁⟩, s₂, hfields, h⟩ := h.bind
  obtain ⟨⟨ihs, left⟩, s₃, hihs, h⟩ := h.bind
  obtain ⟨⟨deps, values⟩, s₄, hdeps, h⟩ := h.bind
  obtain ⟨g, s₅, hdeclare, h⟩ := h.bind
  obtain ⟨rfl, rfl⟩ := h.pure
  obtain ⟨-, rfl⟩ := ends_ofOption.mp htype
  have hs₂ := next_le_of_keeps (keeps_openFields _ _ _ (Term.over_all _)) hfields
  have hs₃ := next_le_of_keeps (keeps_openHypotheses (fun _ _ => Term.over_all _) _ _ _) hihs
  have hs₄ := next_le_of_keeps (keeps_replaceLocals (fun p _ => p.2.over_all) fun x _ => x.type.over_all) hdeps
  obtain ⟨hs₅, hg⟩ := between_of_declare hdeclare
  have hs := Nat.le_trans hs₂ (Nat.le_trans hs₃ hs₄)
  exact ⟨Nat.le_trans hs hs₅, hg.weaken hs (Nat.le_refl _)⟩

lemma between_of_eliminateCases {s s' : Supply}
    {r : List Goal × List Term} (h : (E.eliminateCases e T index names ks).Ends s r s') :
    s.next ≤ s'.next ∧ Id.Between s.next s'.next (r.1.map Goal.id) := by
  induction ks generalizing index names r s with
  | nil =>
    obtain ⟨rfl, rfl⟩ := h.pure
    exact ⟨Nat.le_refl _, .nil _ _⟩
  | cons k ks ih =>
    obtain ⟨⟨g, minor, names⟩, s₁, hcase, h⟩ := h.bind
    obtain ⟨⟨gs, minors⟩, s₂, hcases, h⟩ := h.bind
    obtain ⟨rfl, rfl⟩ := h.pure
    obtain ⟨hs₁, hg⟩ := between_of_eliminateCase hcase
    obtain ⟨hs₂, hgs⟩ := ih hcases
    exact ⟨Nat.le_trans hs₁ hs₂, hg.append hgs hs₁ hs₂⟩

lemma dependents_subset (xs : List Id) (hs : List Local) : dependents xs hs ⊆ hs := by
  fun_induction dependents xs hs with
  | case1 => simp
  | case2 xs h hs _ ih => exact cons_subset_cons h ih
  | case3 xs h hs _ ih => exact fun x hx => mem_cons_of_mem h (ih hx)

section

variable (hE : A.Covers E)
include hE

lemma refines_eliminate (hn : ∀ h : Id, n ≤ h.number → A.hole h) (induction : Bool)
    (hypothesis : Name) (names : List Name) (h : ∀ g ∈ goals, g.Over A) :
    (E.eliminate induction hypothesis names goals).Refines A n μ₀ goals := by
  refine .bind (keeps_mainGoal h) fun ⟨g, rest⟩ ⟨hg, hrest, hfirst⟩ => ?_
  dsimp only
  split
  · rename_i x hx
    have hxtype := hg.context.find? hx
    refine .bind (keeps_familyOf? hE hxtype) fun T hT => ?_
    cases T with
    | none => exact .throw _
    | some T =>
      have hT := hT T (by simp)
      dsimp only
      split
      · rename_i position _
        have he : Elimination.Over A
            ⟨g, x, dependents [x.id] (g.context.locals.drop (position + 1)), induction⟩ :=
          ⟨hg, hxtype, fun y hy => hg.context y (mem_of_mem_drop (dependents_subset _ _ hy))⟩
        refine .bind .get fun μ _ => .bind (keeps_sortOf _) fun level _ => ?_
        split
        · rename_i levels _
          intro X hs hμ goals' Y hend
          obtain ⟨⟨new, minors⟩, Z, hcases, hend⟩ := hend.bind
          obtain ⟨hs', hμ', hnew, hminors⟩ :=
            (ElabM.Keeps.lift (keeps_eliminateCases hE hn he hT 0 names fun k hk => hk)).of_ends hs hμ hcases
          have hfresh := (between_of_eliminateCases (ElabM.ends_lift.mp hcases).1).2.weaken hs.start (Nat.le_refl _)
          refine ⟨new, refined_of_solve hfirst hn hg hrest hfresh (fun hbare => ?_) hend⟩
          refine ⟨hs', hμ', ?_, fun g' hg' => (hnew g' hg').1⟩
          refine hT.eliminate levels (he.statement.abs (by simpa using hxtype)) (hminors hbare) x.over_term
            fun m hm => ?_
          obtain ⟨y, _, rfl⟩ := mem_map.mp hm
          exact y.over_term
        · exact .throw _
      · exact .throw _
  · exact .throw _

/-! ## Rewriting -/

lemma keeps_saturate (hΓ : Γ.Over A) (fuel : Nat) (hm : m.Over A) (htype : type.Over A) :
    ElabM.Keeps (A.invariant μ₀) (E.saturate Γ fuel m type) fun r => r.1.Over A ∧ r.2.Over A := by
  induction fuel generalizing m type with
  | zero => exact .exhausted
  | succ fuel ih =>
    refine (keeps_whnf hE htype).bind fun type' htype' => ?_
    split
    · refine (keeps_newArgument hΓ htype'.1).bind fun a ha => ?_
      exact ih (hm.app ha) (htype'.2.instantiate ha)
    · exact .pure ⟨hm, htype⟩

lemma keeps_matchFirst (hΓ : Γ.Over A) (hpattern : pattern.Over A)
    {ms : List Term} (hms : ∀ m ∈ ms, m.Over A) :
    ElabM.Keeps (A.invariant μ₀) (E.matchFirst Γ pattern ms) fun _ => True := by
  induction ms with
  | nil => exact .pure trivial
  | cons m ms ih =>
    rw [forall_mem_cons] at hms
    unfold matchFirst
    split
    · refine (ElabM.Keeps.orRestore (keeps_unify hE hΓ hpattern hms.1)).bind fun solved _ => ?_
      split
      · exact .pure trivial
      · exact ih hms.2
    · exact ih hms.2

lemma keeps_rw (hR : R.Over A) {e : Expr} (he : e.Over A) (reverse : Bool)
    (occurrence : Option Nat) (h : ∀ g ∈ goals, g.Over A) :
    ElabM.Keeps (A.invariant μ₀) (E.rw R e reverse occurrence goals) fun goals => ∀ g ∈ goals, g.Over A := by
  refine (keeps_mainGoal h).bind fun ⟨g, rest⟩ ⟨hg, hrest, _⟩ => ?_
  refine (hR.visit hg.context he (by simp)).bind fun ⟨m, type⟩ ⟨hm, htype⟩ => ?_
  refine (keeps_saturate hE hg.context E.fuel hm htype).bind fun ⟨m, type⟩ ⟨hm, htype⟩ => ?_
  refine (ElabM.keeps_instantiate htype).bind fun type htype => ?_
  split
  · rename_i eqn heqn
    obtain ⟨hetype, hlhs, hrhs⟩ := htype.equation? heqn
    refine (keeps_sortOf _).bind fun level _ => ElabM.Keeps.get.bind fun _ _ => ?_
    refine .when (.throw _) fun _ => ?_
    have hsource : (if reverse then eqn.rhs else eqn.lhs).Over A := by split <;> assumption
    have hreplacement : (if reverse then eqn.lhs else eqn.rhs).Over A := by split <;> assumption
    refine .when (keeps_matchFirst hE hg.context hsource hg.target.closedSubterms) fun _ => ?_
    refine ElabM.Keeps.get.bind fun μ hμ => ?_
    dsimp only
    split
    · rename_i body hbody
      have hbody := hg.target.abstractOccurrences hbody
      refine (ElabM.Keeps.lift (keeps_declare hg.context
        (hbody.instantiate (hμ.instantiate hreplacement)))).bind fun g' hg' => ?_
      have hetype := hμ.instantiate hetype
      refine (keeps_closeWith hE hg ?_).bind fun _ _ => (keeps_newGoals hm).bind fun new hnew => ?_
      · have hmotive : (Term.lam ⟨"x"⟩ (μ.instantiate eqn.type) body).Over A := ⟨hetype, hbody⟩
        have hsymm : (Equation.symm { eqn with
            level := μ.instantiateLevel eqn.level, type := μ.instantiate eqn.type } m).Over A :=
          over_rule hE _ (by simp) (by simp [hetype, hlhs, hrhs, hm])
        split
        · exact over_rule hE _ (by simp) (by simp [hetype, hlhs, hrhs, hmotive, hm, hg'.openHole])
        · refine over_rule hE _ (by simp) ?_
          simp only [forall_mem_cons]
          exact ⟨hetype, hrhs, hlhs, hmotive, hsymm, hg'.openHole, by simp⟩
      · exact keeps_prune (forall_mem_cons.mpr ⟨hg', forall_mem_append.mpr ⟨hnew, hrest⟩⟩)
    · exact .throw _
  · exact .throw _

lemma keeps_simpStep (hR : R.Over A) (h : ∀ g ∈ goals, g.Over A) (target : Term)
    (hes : ∀ e ∈ es, e.Over A) : ElabM.Keeps (A.invariant μ₀) (E.simpStep R goals target es) fun r =>
      ∀ goals ∈ r, ∀ g ∈ goals, g.Over A := by
  induction es with
  | nil => exact .pure (by simp)
  | cons e es ih =>
    rw [forall_mem_cons] at hes
    refine ElabM.Keeps.get.bind fun before hbefore => ?_
    refine (ElabM.Keeps.recover (keeps_rw hE hR hes.1 false none h)).bind fun r hr => ?_
    have hback : ElabM.Keeps (A.invariant μ₀) (do set before; E.simpStep R goals target es) fun r =>
        ∀ goals ∈ r, ∀ g ∈ goals, g.Over A := (ElabM.Keeps.set hbefore).bind fun _ _ => ih hes.2
    cases r with
    | none => exact ih hes.2
    | some goals' =>
      have hgoals' := hr goals' (by simp)
      dsimp only
      split
      · refine (keeps_mainGoal hgoals').bind fun ⟨g', _⟩ _ => ?_
        split
        · exact .pure fun gs hgs => Option.some.inj hgs ▸ hgoals'
        · exact hback
      · exact hback

lemma keeps_simpSteps (hR : R.Over A) (hes : ∀ e ∈ es, e.Over A) (fuel steps : Nat)
    (h : ∀ g ∈ goals, g.Over A) :
    ElabM.Keeps (A.invariant μ₀) (E.simpSteps R es fuel steps goals) fun r => ∀ g ∈ r.1, g.Over A := by
  induction fuel generalizing steps goals with
  | zero => exact .exhausted
  | succ fuel ih =>
    unfold simpSteps
    split
    · exact .pure h
    refine (keeps_mainGoal h).bind fun ⟨g, _⟩ _ => ?_
    refine (keeps_simpStep hE hR h g.target hes).bind fun r hr => ?_
    cases r with
    | none => exact .pure h
    | some goals => exact ih (steps + 1) (hr goals (by simp))

lemma keeps_simp (hR : R.Over A) (hes : ∀ e ∈ es, e.Over A) (h : ∀ g ∈ goals, g.Over A) :
    ElabM.Keeps (A.invariant μ₀) (E.simp R es goals) fun goals => ∀ g ∈ goals, g.Over A := by
  unfold simp
  split
  · exact .pure h
  refine (keeps_simpSteps hE hR hes E.fuel 0 h).bind fun ⟨goals, steps⟩ hgoals => ?_
  refine (ElabM.Keeps.recover (refines_rfl hE A.new_hole hgoals).keeps).bind fun r hr => ?_
  cases r with
  | none =>
    dsimp only
    split
    · exact (keeps_mainGoal hgoals).bind fun _ _ => .throw_bind _ _
    · exact .pure hgoals
  | some goals => exact .pure (hr goals (by simp))

end

/-! ## All tactics -/

lemma keeps_runAll (hR : R.Over A) (ht : t.Over A) (h : ∀ g ∈ goals, g.Over A) :
    ElabM.Keeps (A.invariant μ₀) (runAll R t goals) fun goals => ∀ g ∈ goals, g.Over A := by
  induction goals with
  | nil => exact .pure (by simp)
  | cons g goals ih =>
    rw [forall_mem_cons] at h
    refine ElabM.Keeps.get.bind fun μ _ => ?_
    split
    · exact ih h.2
    refine (hR.run ht (by simpa using h.1)).bind fun new hnew => (ih h.2).bind fun rest hrest => ?_
    exact .pure (forall_mem_append.mpr ⟨hnew, hrest⟩)

lemma keeps_runForm (hE : A.Covers E) (hR : R.Over A) (ht : t.Over A) (h : ∀ g ∈ goals, g.Over A) :
    ElabM.Keeps (A.invariant μ₀) (E.runForm R t goals) fun goals => ∀ g ∈ goals, g.Over A := by
  cases ht with
  | intro => exact keeps_intro hE _ h
  | cases => exact (refines_eliminate hE A.new_hole false _ _ h).keeps
  | induction => exact (refines_eliminate hE A.new_hole true _ _ h).keeps
  | rw he => exact keeps_rw hE hR he _ _ h
  | split => exact (refines_split hE A.new_hole h).keeps
  | assumption => exact (refines_assumption hE A.new_hole h).keeps
  | exact he => exact keeps_exact hE hR he h
  | apply he => exact keeps_apply hE hR he h
  | simp hes => exact keeps_simp hE hR hes h
  | rfl => exact (refines_rfl hE A.new_hole h).keeps
  | decide => exact (refines_decide hE A.new_hole h).keeps
  | deferred hA => exact (refines_defer hA A.new_hole h).keeps
  | seq hts => exact .foldlM h fun goals hgoals t ht => hR.run (hts t ht) hgoals
  | loop ht =>
    refine (ElabM.Keeps.recover (hR.run ht h)).bind fun r hr => ?_
    cases r with
    | none => exact .pure h
    | some goals' =>
      have hgoals' := hr goals' (by simp)
      dsimp only
      split
      · exact .pure hgoals'
      · exact hR.run (.loop ht) hgoals'
  | focus ht =>
    refine (keeps_mainGoal h).bind fun ⟨g, rest⟩ ⟨hg, hrest, _⟩ => ?_
    refine (hR.run ht (by simpa using hg)).bind fun new hnew => ?_
    exact keeps_prune (forall_mem_append.mpr ⟨hnew, hrest⟩)
  | all ht => exact (keeps_runAll hR ht h).bind fun goals hgoals => keeps_prune hgoals
  | orElse ht hu =>
    refine (ElabM.Keeps.recover (hR.run ht h)).bind fun r hr => ?_
    cases r with
    | none => exact hR.run hu h
    | some goals' => exact .pure (hr goals' (by simp))

/-! ## The recursion -/

/-- Expressions and tactics stay over the alphabet, whatever the fuel. -/
lemma recursion_over (hE : A.Covers E) (fuel : Nat) : Recursion.Over A ⟨E.visit fuel, E.run fuel⟩ := by
  induction fuel with
  | zero =>
    constructor <;> intros
    · unfold visit; exact .exhausted
    · unfold Elaborator.run; exact .exhausted
  | succ fuel ih =>
    constructor
    · intro _ Γ e expected hΓ he hexpected
      exact keeps_visitForm hE ih hΓ he hexpected
    · intro _ t goals ht h
      exact keeps_runForm hE ih ht h

end Elaborator

end ProofAssistant
