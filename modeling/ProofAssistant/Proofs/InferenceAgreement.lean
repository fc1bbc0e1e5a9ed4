import Mathlib.Algebra.Order.BigOperators.Group.List
import Mathlib.Algebra.Order.Group.Nat
import ProofAssistant.Proofs.GroundUnification
import ProofAssistant.Proofs.TelescopeInstances

/-!
# Types are read off as the checker finds them

`Env.typeOf` reads the type of a term off its form. If the checker accepts the term, this is the very type that it
finds, whatever has been solved (`Env.typeOf_agrees`). The context need not be well typed, but finished: `Env.typeOf`
puts in solutions for what is left open in it.

The two open binders from different numbers and under different names, so the induction is on what the checker does,
for all identities that the other may have given (`Env.Infers.readsType`).
-/

namespace ProofAssistant

/-! ## Finished terms -/

lemma Term.in_finished {P : Id → Prop} {k : Nat} {m : Term} (hhole : m.hasHole = false)
    (hlevels : m.hasLevelMVar = false) (hm : m.In { free := P } k) : m.In (.finished P) k := by
  refine ((leafwise_hasHole.and (leafwise_anyLevel Level.hasMVar False)).and (leafwise_in _)).imp (leafwise_in _)
    (fun k m hl h => ?_) ⟨⟨hhole, Bool.eq_false_iff.mp hlevels⟩, hm⟩
  cases m <;> simp_all [IsLeaf, In, anyLevel, hasHole, Scope.finished]

/-- The hypotheses have numbers below `bound`, and the types have neither holes nor metavariables. -/
structure Context.Finished (bound : Nat) (Γ : Context) : Prop where
  ids : ∀ x ∈ Γ.ids, x.number < bound
  below : ∀ x ∈ Γ.locals, x.type.Below bound
  holes : ∀ x ∈ Γ.locals, x.type.hasHole = false
  levels : ∀ x ∈ Γ.locals, x.type.hasLevelMVar = false

lemma Context.Finished.foundIn {bound : Nat} {Γ : Context} (h : Γ.Finished bound) :
    ∃ k, Γ.FoundIn (.finished (·.number < bound)) k := by
  refine ⟨(Γ.locals.map (·.type.looseBound)).sum, fun x y hget => ⟨h.ids x (mem_ids_of_get? hget), ?_⟩⟩
  have hy : y ∈ Γ.locals := List.mem_reverse.mp (List.mem_of_find?_eq_some hget)
  exact (Term.in_finished (h.holes y hy) (h.levels y hy) (h.below y hy)).le
    (List.le_sum_of_mem (List.mem_map_of_mem hy))

namespace Env

variable {m T t b : Term} {P : Id → Prop} {k fuel : Nat} {x : Name}

open Fueled

variable {env : Env} {ps : List Name} {s : Supply} {μ : Metas} {next next' : Nat} {Γ Γ' : Context}

lemma Infers.type_finished (henv : env.Scoped) (h : env.Infers ps next Γ m T) (hΓ : Γ.FoundIn (.finished P) k)
    (hm : m.In (.finished P) k) : T.In (.finished P) k := by
  have hclosed {m : Term} (hm : m.In (env.scope ps fun _ => False) 0) {P : Id → Prop} : m.In (.finished P) k :=
    hm.mono (env.scope_le_finished ps fun _ h => h.elim) (Nat.zero_le k)
  have hreduced {P : Id → Prop} {fuel : Nat} {F F' : Term} (hF : F.In (.finished P) k)
      (h : env.whnf fuel F = some F') : F'.In (.finished P) k :=
    (steps_of_whnf h).in_scope (henv.admits_finished P) hF
  induction h generalizing P with
  | free hget => exact (hΓ _ _ hget).2
  | sort hl => exact hl.1
  | const hget _ hlen hls =>
    exact hclosed (in_scope_instantiate (henv.terms _ (List.mem_of_find?_eq_some hget) _ (Decl.type_mem_terms _))
      hlen hls _)
  | ctor ht hk hlen hls =>
    exact hclosed (in_scope_instantiate (henv.ctors _ _ ht _ (List.mem_of_getElem? hk)) hlen hls _)
  | app _ hpi _ _ ihf _ => exact (hreduced (ihf hΓ hm.1) hpi).2.instantiate hm.2
  | lam _ _ _ _ ihb => exact ⟨hm.1, (ihb (hΓ.add hm.1) (hm.2.opened _)).close_pushed⟩
  | pi _ hsort _ hsort' iht ihb =>
    exact Bool.or_eq_false_iff.mpr
      ⟨hreduced (iht hΓ hm.1) hsort, hreduced (ihb (hΓ.add hm.1) (hm.2.opened _)) hsort'⟩

/-! ## What is read off with enough fuel -/

/-- With enough fuel, `T` is read off as the type of `m`. -/
def ReadsType (env : Env) (s : Supply) (μ : Metas) (next : Nat) (Γ : Context) (m T : Term) : Prop :=
  ∃ enough, ∀ fuel, enough ≤ fuel → (env.typeOf s μ fuel next Γ m).Yields T

/-- With enough fuel, `l` is read off as the level of the type `m`. -/
def ReadsSort (env : Env) (s : Supply) (μ : Metas) (next : Nat) (Γ : Context) (m : Term) (l : Level) : Prop :=
  ∃ enough, ∀ fuel, enough ≤ fuel → (env.sortOf s μ fuel next Γ m).Yields l

lemma ReadsType.of_succ (h : ∀ fuel, (env.typeOf s μ (fuel + 1) next Γ m).Yields T) : env.ReadsType s μ next Γ m T :=
  exists_enough_of_succ ⟨0, fun fuel _ => h fuel⟩

lemma ReadsType.app {f a F : Term} {i : Bool} (hf : env.ReadsType s μ next Γ f F)
    (hpi : env.whnfOf μ fuel F = some (.pi x i t b)) : env.ReadsType s μ next Γ (.app f a) (b.instantiate a) := by
  obtain ⟨enough, hf⟩ := hf
  refine exists_enough_of_succ ⟨max enough fuel, fun fuel' hle => ?_⟩
  obtain ⟨hle, hle'⟩ := Nat.max_le.mp hle
  simp only [typeOf, yields_bind, yields_ofOption]
  exact ⟨F, hf fuel' hle, _, whnf_mono hle' hpi, yields_pure.mpr rfl⟩

lemma ReadsSort.of_type {S : Term} {l : Level} (hm : env.ReadsType s μ next Γ m S)
    (hsort : env.whnfOf μ fuel S = some (.sort l)) : env.ReadsSort s μ next Γ m l := by
  obtain ⟨enough, hm⟩ := hm
  refine exists_enough_of_succ ⟨max enough fuel, fun fuel' hle => ?_⟩
  obtain ⟨hle, hle'⟩ := Nat.max_le.mp hle
  simp only [sortOf, yields_bind, yields_ofOption]
  exact ⟨S, hm fuel' hle, _, whnf_mono hle' hsort, yields_pure.mpr rfl⟩

lemma ReadsType.lam {B : Term}
    (hb : env.ReadsType s μ (next + 1) (Γ.push (.new next x t)) (b.instantiate (Local.new next x t).term) B) :
    env.ReadsType s μ next Γ (.lam x t b) (.pi x false t (B.close [(Local.new next x t).id] 0)) := by
  obtain ⟨enough, hb⟩ := hb
  refine exists_enough_of_succ ⟨enough, fun fuel hle => ?_⟩
  simp only [typeOf, yields_bind]
  exact ⟨B, hb fuel hle, yields_pure.mpr rfl⟩

lemma ReadsType.pi {i : Bool} {l l' : Level} (ht : env.ReadsSort s μ next Γ t l)
    (hb : env.ReadsSort s μ (next + 1) (Γ.push (.new next x t)) (b.instantiate (Local.new next x t).term) l') :
    env.ReadsType s μ next Γ (.pi x i t b) (.sort (.imax l l')) := by
  obtain ⟨enough, ht⟩ := ht
  obtain ⟨enough', hb⟩ := hb
  refine exists_enough_of_succ ⟨max enough enough', fun fuel hle => ?_⟩
  obtain ⟨hle, hle'⟩ := Nat.max_le.mp hle
  simp only [typeOf, yields_bind]
  exact ⟨l, ht fuel hle, l', hb fuel hle', yields_pure.mpr rfl⟩

/-! ## Agreement -/

/-- A hypothesis may also be added under a name that hides others. -/
lemma ContextRenamed.push {ρ : Id → Id} {x : Local} (h : ContextRenamed ρ Γ (Γ'.add x)) :
    ContextRenamed ρ Γ (Γ'.push x) := by
  intro y z hget
  obtain ⟨z', hget', htype⟩ := h y z hget
  obtain ⟨z'', hget'', htype'⟩ := Context.within_of_entries (Γ'.entries_push x).symm _ z' hget'
  exact ⟨z'', hget'', htype'.trans htype⟩

/-- There is nothing to put into a finished type before it is reduced, and other identities do not matter for that. -/
lemma whnfOf_finished (henv : env.Scoped) (μ : Metas) {F F' : Term} (hF : F.In (.finished P) k)
    (h : env.whnf fuel F = some F') (ρ : Id → Id) : env.whnfOf μ fuel (F.relabel ρ id) = some (F'.relabel ρ id) := by
  have hlevels (ls : List Level) (hls : ∀ l ∈ ls, l.hasMVar = false) : ∀ l ∈ ls.map id, l.hasMVar = false := by
    rwa [List.map_id]
  have hrelabelled : (F.relabel ρ id).In (.finished fun _ => True) k :=
    hF.relabel ρ id (fun _ _ => trivial) (fun _ h => h) (fun _ h => h) (fun _ => hlevels) fun _ _ => hlevels
  rw [whnfOf, μ.instantiate_finished hrelabelled, (henv.relabels _).whnf (henv.admits_finished P) hF, h,
    Option.map_some]

/-- The type that the checker finds is read off, also for other identities. -/
lemma Infers.readsType (henv : env.Scoped) (s : Supply) (μ : Metas) (h : env.Infers ps next Γ m T)
    (hΓ : Γ.FoundIn (.finished P) k) (hm : m.In (.finished P) k) {ρ : Id → Id}
    (hρ : Renaming (.finished P) next next' ρ) (hΓ' : ContextRenamed ρ Γ Γ') :
    env.ReadsType s μ next' Γ' (m.relabel ρ id) (T.relabel ρ id) := by
  induction h generalizing P next' Γ' ρ with
  | free hget =>
    obtain ⟨h', hget', htype⟩ := hΓ' _ _ hget
    refine .of_succ fun fuel => ?_
    simp only [Term.relabel, typeOf, hget', htype]
    exact yields_pure.mpr rfl
  | sort hl => exact .of_succ fun fuel => yields_pure.mpr rfl
  | @const next Γ c ls d hget hkind hlen hls =>
    refine .of_succ fun fuel => ?_
    rw [relabel_instance (henv.terms d (List.mem_of_find?_eq_some hget) d.type d.type_mem_terms), Term.relabel,
      List.map_id]
    simp only [typeOf, hget]
    exact yields_pure.mpr rfl
  | ctor ht hk hlen hls =>
    refine .of_succ fun fuel => ?_
    rw [relabel_instance (henv.ctors _ _ ht _ (List.mem_of_getElem? hk)), Term.relabel, List.map_id]
    simp only [typeOf, ht, hk, Option.bind_some]
    exact yields_pure.mpr rfl
  | app hf hpi _ _ ihf _ =>
    rw [Term.relabel_instantiate]
    exact (ihf hΓ hm.1 hρ hΓ').app (whnfOf_finished henv μ (hf.type_finished henv hΓ hm.1) hpi ρ)
  | @lam next fuel Γ x t b S B l ht hsort hb iht ihb =>
    have hΓb := hΓ.add (x := .new next x t) hm.1
    have hB : B.In ((Scope.finished P).push (Local.new next x t).id) k := hb.type_finished henv hΓb (hm.2.opened _)
    -- the body has been opened with the next identity on both sides, over which its type is closed again
    have hbody := ihb hΓb (hm.2.opened _) (hρ.push (some x)) (hΓ'.add hΓ hρ x hm.1).push
    have hopened := hρ.relabel_opened (some x) hm.2 id
    rw [Term.relabel, Term.relabel, Local.new, hρ.relabel_closed (some x) hB id]
    exact .lam (hopened ▸ hbody)
  | @pi next fuel fuel' Γ x i t b S S' l l' ht hsort hb hsort' iht ihb =>
    have hΓb := hΓ.add (x := .new next x t) hm.1
    have hbody := ihb hΓb (hm.2.opened _) (hρ.push (some x)) (hΓ'.add hΓ hρ x hm.1).push
    have hopened := hρ.relabel_opened (some x) hm.2 id
    have hsort₁ := whnfOf_finished henv μ (ht.type_finished henv hΓ hm.1) hsort ρ
    have hsort₂ := whnfOf_finished henv μ (hb.type_finished henv hΓb (hm.2.opened _)) hsort'
      (Renaming.extend ρ next next' (some x))
    exact .pi (.of_type (iht hΓ hm.1 hρ hΓ') hsort₁) (.of_type (hopened ▸ hbody) hsort₂)

/-- If the checker accepts a term then `typeOf` ends, with enough fuel, with the type that it has found, and `sortOf`
with the level. The context may be ill typed, and anything may be solved. Both open binders above the context, each from
a number of its own. -/
theorem typeOf_agrees (henv : Reachable env) {bound : Nat} (hΓ : Γ.Finished bound) (hnext : bound ≤ next)
    (hnext' : bound ≤ next') {m : Term} (hm : m.Below next) (s : Supply) (μ : Metas) :
    (∀ fuel T, (env.infer ps fuel next Γ m).Yields T → env.ReadsType s μ next' Γ m T) ∧
    ∀ fuel l, (env.inferSort ps fuel next Γ m).Yields l → env.ReadsSort s μ next' Γ m l := by
  have hscoped := scoped_of_reachable henv
  obtain ⟨k, hfound⟩ := hΓ.foundIn
  have hid : Renaming (.finished (·.number < bound)) next next' id :=
    ⟨fun _ _ _ _ h => h, fun _ hx => Nat.lt_of_lt_of_le hx hnext, fun _ hx => Nat.lt_of_lt_of_le hx hnext'⟩
  -- an accepted term has no holes or metavariables, and no hypotheses but those of the context
  have hfinished {T : Term} (h : env.Infers ps next Γ m T) : m.In (.finished (·.number < bound)) k :=
    (h.in_scope hm).mono (env.scope_le_finished ps hΓ.ids) (Nat.zero_le k)
  have hreads {T : Term} (h : env.Infers ps next Γ m T) : env.ReadsType s μ next' Γ m T := by
    simpa only [relabel_id] using h.readsType hscoped s μ hfound (hfinished h) hid (.refl Γ)
  refine ⟨fun fuel T h => hreads (infers_of_infer h), fun fuel l h => ?_⟩
  obtain ⟨S, fuel', hS, hsort⟩ := infersSort_of_inferSort h
  have hsort' := whnfOf_finished hscoped μ (hS.type_finished hscoped hfound (hfinished hS)) hsort id
  rw [relabel_id] at hsort'
  exact .of_type (hreads hS) hsort'

/-- In the context `A : Type`, the binder of `fun (A : A) => (fun y => y) A` hides the hypothesis, and its argument has
the type of `y` only after a reduction. -/
theorem typeOf_agrees_hidden :
    let A := Local.new 0 ⟨"A"⟩ .type
    let t := Term.app (.lam ⟨"z"⟩ .type (.var 0)) A.term
    let m := Term.lam ⟨"A"⟩ A.term (.app (.lam ⟨"y"⟩ t (.var 0)) (.var 0))
    let T := Term.pi ⟨"A"⟩ false A.term t
    let μ : Metas := ⟨[(⟨3, none⟩, .prop)], [(⟨4, none⟩, .one)], []⟩
    (({} : Env).infer [] 10 1 ⟨[A]⟩ m).Yields T ∧ ({} : Env).ReadsType ⟨7, []⟩ μ 7 ⟨[A]⟩ m T ∧
      (({} : Env).inferSort [] 10 1 ⟨[A]⟩ T).Yields (.imax .one .one) ∧
      ({} : Env).ReadsSort ⟨7, []⟩ μ 7 ⟨[A]⟩ T (.imax .one .one) := by
  intro A t m T μ
  have hΓ : Context.Finished 1 ⟨[A]⟩ := by
    constructor <;> simp [A, Context.ids, Local.new, Term.Below, Term.In, Term.type, Term.hasHole, Term.hasLevelMVar,
      Term.anyLevel, Level.one, Level.hasMVar]
  have hm : m.Below 1 ∧ T.Below 1 := by
    simp [m, T, t, A, Local.term, Local.new, Term.Below, Term.In, Term.type]
  have hinfer : (({} : Env).infer [] 10 1 ⟨[A]⟩ m).Yields T := rfl
  have hsort : (({} : Env).inferSort [] 10 1 ⟨[A]⟩ T).Yields (.imax .one .one) := rfl
  exact ⟨hinfer, (typeOf_agrees .refl hΓ (Nat.le_refl 1) (by decide) hm.1 _ _).1 10 T hinfer, hsort,
    (typeOf_agrees .refl hΓ (Nat.le_refl 1) (by decide) hm.2 _ _).2 10 _ hsort⟩

end Env

end ProofAssistant
