import ProofAssistant.Proofs.CompiledCases
import ProofAssistant.Proofs.Solutions

/-!
# What unification meets is in scope

Unification reads off types, opens products and solves patterns. If a problem is in scope, so is all that comes up
on the way: `Env.typeOf_in` for types that are read off, `Env.openArguments_in` for the binders of a hole with more
arguments than its context has hypotheses, and `Env.Solvable.renamed_in` for what a hole is solved by.
-/

namespace ProofAssistant

open Fueled Scope List Term Env Option

variable {m type : Term} {μ : Metas} {P : Id → Prop} {fuel next : Nat} {S : Scope} {Γ : Context} {g : Goal}
  {L : Level → Prop}

open InductiveSpec

/-! ## Declarations -/

/-- The levels that satisfy `L` are enough for the types of terms over them. -/
structure Level.Typing (L : Level → Prop) : Prop where
  succ : ∀ l, L l → L l.succ
  imax : ∀ l l', L l → L l' → L (l.imax l')
  declared : ∀ ps l ls, Level.Admitted ps l → (∀ l ∈ ls, L l) → L (l.instantiateParams ps ls)

lemma Level.Typing.plain : Level.Typing Level.Plain where
  succ _ h := h
  imax _ _ h h' := forall_mem_append.mpr ⟨h, h'⟩
  declared ps l ls hl hls := by
    have hlookup : ∀ p, (lookupParam ps ls p).Plain := by
      intro p
      unfold lookupParam
      cases hp : (ps.zip ls).lookup p with
      | none => exact fun u hu => nomatch hu
      | some l' => exact hls l' (of_mem_zip (mem_of_lookup_eq_some hp)).2
    -- there are no metavariables, so they may stand for anything
    have heq : l.instantiateParams ps ls = l.subst (lookupParam ps ls) fun _ => .zero :=
      hl.subst_congr fun _ _ => rfl
    rw [heq]
    exact (Plain.of_hasMVar hl.1).subst hlookup fun _ => plain_zero

namespace Env

variable {env : Env} {L : Level → Prop}

lemma in_leveled_of_declared (hL : Level.Typing L) {ps : List Name} (hm : m.In (env.scope ps fun _ => False) 0)
    {ls : List Level} (hls : ∀ l ∈ ls, L l) (P : Id → Prop) : (m.instantiateLevelParams ps ls).In (.leveled L P) 0 := by
  have hmap : ∀ ls' : List Level, (∀ l ∈ ls', l.Admitted ps) → ∀ l ∈ ls'.map (·.instantiateParams ps ls), L l :=
    fun ls' h => forall_mem_map.mpr fun l hl => hL.declared ps l ls (h l hl) hls
  rw [instantiateLevelParams_eq_mapLevels]
  exact hm.mapLevels (fun _ hx => hx.elim) (fun _ hh => hh.elim) (fun l hl => hL.declared ps l ls hl hls)
    (fun _ ls' hc => hmap ls' hc.2) fun _ _ ls' hc => hmap ls' hc.2

lemma Scoped.admits_leveled (henv : env.Scoped) (hL : Level.Typing L) (P : Id → Prop) :
    env.Admits (.leveled L P) := by
  intro c ls d value height hget hkind _ hls
  have hvalue : value ∈ d.terms := by simp [Decl.terms, hkind]
  exact in_leveled_of_declared hL (henv.terms d (mem_of_find?_eq_some hget) value hvalue) hls P

lemma Scoped.admits_plain (henv : env.Scoped) (P : Id → Prop) : env.Admits (.plain P) :=
  henv.admits_leveled .plain P

lemma whnfOf_in (hL : Level.Typing L) (henv : env.Scoped) (hμ : μ.ClosedOver L) {k : Nat} {m' : Term}
    (hm : m.In (.leveled L P) k) (h : env.whnfOf μ fuel m = some m') : m'.In (.leveled L P) k :=
  (steps_of_whnf h).in_scope (henv.admits_leveled hL P) (hμ.instantiate_in hm)

end Env

/-! ## Contexts and goals -/

/-- The types of all hypotheses are in the scope. -/
def Context.TypesIn (S : Scope) (Γ : Context) : Prop :=
  ∀ x ∈ Γ.locals, x.type.In S 0

namespace Context

lemma TypesIn.push {S' : Scope} (h : Γ.TypesIn S) (hS : S.Le S') {x : Local} (hx : x.type.In S' 0) :
    (Γ.push x).TypesIn S' :=
  forall_type_push (fun y hy => (h y hy).widen hS) hx

lemma TypesIn.get? (h : Γ.TypesIn S) {x : Id} {y : Local} (hy : Γ.get? x = some y) : y.type.In S 0 :=
  h y (mem_reverse.mp (mem_of_find?_eq_some hy))

end Context

/-- The hypotheses of the goal are distinct, with numbers below `next`, each after those it mentions, and the target has
no others. -/
structure Goal.Scoped (next : Nat) (g : Goal) : Prop where
  fresh : Local.Between 0 next g.context.locals
  context : Local.AllIn (.plain fun _ => False) g.context.locals
  target : g.target.In ((plain fun _ => False).pushAll g.context.locals) 0

lemma Scope.leveled_pushAll (L : Level → Prop) (P : Id → Prop) (xs : List Local) :
    (leveled L P).pushAll xs = leveled L fun y => P y ∨ y ∈ xs.map Local.id := by
  rw [pushAll_eq]
  rfl

/-- Each type in the context of the goal mentions earlier hypotheses only, and the target no others. -/
structure Goal.ScopedOver (L : Level → Prop) (g : Goal) : Prop where
  context : Local.AllIn (.leveled L fun _ => False) g.context.locals
  target : g.target.In ((leveled L fun _ => False).pushAll g.context.locals) 0

lemma Goal.Scoped.scopedOver (hg : g.Scoped next) : g.ScopedOver Level.Plain :=
  ⟨hg.context, hg.target⟩

lemma Goal.ScopedOver.instantiate (hg : g.ScopedOver L) (hμ : μ.ClosedOver L) :
    Goal.ScopedOver L { g with target := μ.instantiate g.target } := by
  have htarget := hg.target
  rw [leveled_pushAll] at htarget
  refine ⟨hg.context, ?_⟩
  rw [leveled_pushAll]
  exact hμ.instantiate_in htarget

lemma Goal.ScopedOver.closedType_in (hg : g.ScopedOver L) (P : Id → Prop) : g.closedType.In (.leveled L P) 0 :=
  (Term.In.pis hg.context hg.target).widen (leveled_le fun _ hx => hx.elim)

/-! ## Types that are read off -/

namespace Env

variable {env : Env} {s : Supply} {μ : Metas} {L : Level → Prop}

/-- The type of a term is in the scope of the term and its context, and so is the level of its sort. -/
private lemma typeOf_in_of_fuel (hL : Level.Typing L) (henv : env.Scoped) (hs : ∀ g ∈ s.goals, g.ScopedOver L)
    (hμ : μ.ClosedOver L) (fuel : Nat) :
    (∀ next P Γ m T, Γ.TypesIn (.leveled L P) → m.In (.leveled L P) 0 → (env.typeOf s μ fuel next Γ m).Yields T →
      T.In (.leveled L P) 0) ∧
    ∀ next P Γ m l, Γ.TypesIn (.leveled L P) → m.In (.leveled L P) 0 → (env.sortOf s μ fuel next Γ m).Yields l →
      L l := by
  induction fuel with
  | zero => exact ⟨fun _ _ _ _ _ _ _ h => absurd h not_yields_exhausted,
      fun _ _ _ _ _ _ _ h => absurd h not_yields_exhausted⟩
  | succ fuel ih =>
    refine ⟨fun next P Γ m T hΓ hm h => ?_, fun next P Γ m l hΓ hm h => ?_⟩
    · cases m with
      | var i => exact absurd h not_yields_throw
      | sort l => exact yields_pure.mp h ▸ hL.succ l hm
      | free x =>
        simp only [typeOf] at h
        split at h
        · rename_i y hy
          exact yields_pure.mp h ▸ hΓ.get? hy
        · exact absurd h not_yields_throw
      | const c ls =>
        simp only [typeOf] at h
        split at h
        · rename_i d hd
          rw [← yields_pure.mp h]
          exact in_leveled_of_declared hL (henv.terms d (mem_of_find?_eq_some hd) _ d.type_mem_terms) hm P
        · exact absurd h not_yields_throw
      | ctor t i name ls =>
        simp only [typeOf] at h
        split at h
        · rename_i t k hk
          obtain ⟨t', ht', hk⟩ := bind_eq_some_iff.mp hk
          obtain ⟨k', hk', heq⟩ := map_eq_some_iff.mp hk
          obtain ⟨rfl, rfl⟩ := Prod.mk.inj heq
          rw [← yields_pure.mp h]
          exact in_leveled_of_declared hL (henv.ctors _ _ ht' _ (mem_of_getElem? hk')) hm P
        · exact absurd h not_yields_throw
      | app f a =>
        simp only [typeOf, yields_bind, yields_ofOption] at h
        obtain ⟨F, hF, F', hwhnf, h⟩ := h
        have hF' := whnfOf_in hL henv hμ (ih.1 _ _ _ _ _ hΓ hm.1 hF) hwhnf
        split at h
        · exact yields_pure.mp h ▸ hF'.2.instantiate hm.2
        · exact absurd h not_yields_throw
      | lam x t b =>
        simp only [typeOf, yields_bind] at h
        obtain ⟨B, hB, h⟩ := h
        have hpush := hΓ.push ((leveled L P).le_push ⟨next, some x⟩)
          (x := .new next x t) (hm.1.widen (le_push _ _))
        exact yields_pure.mp h ▸ ⟨hm.1, (ih.1 _ _ _ _ _ hpush (hm.2.opened (.new next x t)) hB).close_pushed⟩
      | pi x i t b =>
        simp only [typeOf, yields_bind] at h
        obtain ⟨l, hl, l', hl', h⟩ := h
        have hpush := hΓ.push ((leveled L P).le_push ⟨next, some x⟩)
          (x := .new next x t) (hm.1.widen (le_push _ _))
        exact yields_pure.mp h ▸ hL.imax l l' (ih.2 _ _ _ _ _ hΓ hm.1 hl)
          (ih.2 _ _ _ _ _ hpush (hm.2.opened (.new next x t)) hl')
      | hole n d =>
        simp only [typeOf] at h
        split at h
        · rename_i g hg
          obtain ⟨g', hg', rfl⟩ := map_eq_some_iff.mp hg
          have hscoped := (hs g' (mem_of_find?_eq_some hg')).instantiate hμ
          exact yields_pure.mp h ▸ hscoped.closedType_in P
        · exact absurd h not_yields_throw
    · simp only [sortOf, yields_bind, yields_ofOption] at h
      obtain ⟨T, hT, T', hwhnf, h⟩ := h
      have hT' := whnfOf_in hL henv hμ (ih.1 _ _ _ _ _ hΓ hm hT) hwhnf
      split at h
      · exact yields_pure.mp h ▸ hT'
      · exact absurd h not_yields_throw

lemma typeOf_in (hL : Level.Typing L) (henv : env.Scoped) (hs : ∀ g ∈ s.goals, g.ScopedOver L) (hμ : μ.ClosedOver L)
    (hΓ : Γ.TypesIn (.leveled L P)) {T : Term} (hm : m.In (.leveled L P) 0)
    (h : (env.typeOf s μ fuel next Γ m).Yields T) : T.In (.leveled L P) 0 :=
  (typeOf_in_of_fuel hL henv hs hμ fuel).1 next P Γ m T hΓ hm h

/-- The binders for the arguments of a function are new, and they and the type of the result are in scope. -/
lemma openArguments_in (hL : Level.Typing L) (henv : env.Scoped) (hμ : μ.ClosedOver L) {count : Nat}
    (htype : type.In (.leveled L P) 0) {xs : List Local} {result : Term}
    (h : env.openArguments μ fuel count next type = some (some (xs, result))) :
    xs.length = count ∧ Local.Between next (next + count) xs ∧ Local.AllIn (.leveled L P) xs ∧
      result.In ((leveled L P).pushAll xs) 0 := by
  induction count generalizing next P type xs with
  | zero =>
    obtain ⟨rfl, rfl⟩ := Prod.mk.inj (Option.some.inj (Option.some.inj h))
    exact ⟨rfl, .nil (Nat.le_refl next), trivial, htype⟩
  | succ count ih =>
    obtain ⟨type', hwhnf, h⟩ := bind_eq_some_iff.mp h
    have htype' := whnfOf_in hL henv hμ htype hwhnf
    split at h
    · rename_i x i t b
      obtain ⟨rest, hrest, h⟩ := bind_eq_some_iff.mp h
      split at h
      · rename_i ys result'
        obtain ⟨rfl, rfl⟩ := Prod.mk.inj (Option.some.inj (Option.some.inj h))
        obtain ⟨hlen, hnumbers, hys, hresult⟩ :=
          ih (htype'.2.opened (.new next x t)) hrest
        have hfresh := (Local.Between.new next x t).append hnumbers
        refine ⟨by simp [hlen], hfresh.weaken (Nat.le_refl _) (by omega), ⟨htype'.1, hys⟩, hresult⟩
      · simp at h
    · simp at h

end Env

/-! ## Patterns -/

namespace Term

lemma leafwise_isSupportedBy (xs : List Id) : Leafwise fun _ m => m.isSupportedBy xs := by
  have hfold := isSupportedBy_eq_foldLeaves xs
  constructor <;> intros <;> rw [hfold 0, foldLeaves, ← hfold, ← hfold, Bool.and_eq_true]

lemma In.of_isSupportedBy {k : Nat} (hm : m.In S k) {xs : List Id} (h : m.isSupportedBy xs) :
    m.In { S with free := (· ∈ xs) } k := by
  refine ((leafwise_in S).and (leafwise_isSupportedBy xs)).imp (leafwise_in _) (fun k m hl h => ?_) ⟨hm, h⟩
  cases m <;> simp_all [IsLeaf, In, isSupportedBy, hasFree]

end Term

namespace Env

namespace Solvable

variable {s : Supply} {pattern m : Term} {g : Goal} {spine : List Id} {P : Id → Prop} {xs : List Local}
  {L : Level → Prop}

lemma spine_in (h : Solvable s pattern m g spine) (hpattern : pattern.In (.leveled L P) 0) : ∀ x ∈ spine, P x := by
  rw [h.pattern_eq, in_apply] at hpattern
  exact fun x hx => hpattern.2 (.free x) (mem_map_of_mem hx)

/-- The type of the pattern, from the type over the binders `xs` of its hole. -/
lemma expected_in (h : Solvable s pattern m g spine) (hpattern : pattern.In (.leveled L P) 0)
    (hlen : xs.length = spine.length) (htype : type.In ((leveled L fun _ => False).pushAll xs) 0) :
    (type.subst ((xs.map Local.id).zip (spine.map Term.free))).In (.leveled L P) 0 := by
  rw [leveled_pushAll] at htype
  refine htype.subst { free := fun _ hx => hx.elim } (fun p hp => ?_) fun x hx hnone => ?_
  · obtain ⟨y, hy, hyp⟩ := mem_map.mp (of_mem_zip hp).2
    exact hyp ▸ h.spine_in hpattern y hy
  · have hx : False ∨ x ∈ xs.map Local.id := hx
    exact absurd hnone (lookup_zip_ne_none (by simp [hlen]) (hx.resolve_left id))

/-- The term that the hole is solved by, before it is closed over the binders `xs`. -/
lemma renamed_in (h : Solvable s pattern m g spine) (hm : m.In (.leveled L P) 0) (hlen : xs.length = spine.length) :
    (m.subst (spine.zip (xs.map Local.term))).In ((leveled L fun _ => False).pushAll xs) 0 := by
  have hle : Scope.Le { leveled L (· ∈ spine) with free := fun _ => False }
      ((leveled L fun _ => False).pushAll xs) := by
    rw [leveled_pushAll]
    exact { free := fun _ hx => hx.elim }
  refine (hm.of_isSupportedBy h.supported).subst hle (fun p hp => ?_) fun x hx hnone => ?_
  · obtain ⟨y, hy, hyp⟩ := mem_map.mp (of_mem_zip hp).2
    exact hyp ▸ in_pushAll_term hy
  · exact absurd hnone (lookup_zip_ne_none (by simp [hlen]) hx)

end Solvable

/-- The binders of a hole that is solved are the hypotheses of its goal and new ones for further arguments, all in
scope. -/
lemma OpensPattern.binders_in {env : Env} {s : Supply} (hL : Level.Typing L) (henv : env.Scoped)
    (hμ : μ.ClosedOver L) {pattern : Term} {spine : List Id} {extra : List Local} (hg : g.ScopedOver L)
    (h : env.OpensPattern s μ fuel next pattern m g spine extra type) :
    (g.context.locals ++ extra).length = spine.length ∧
      Local.Between next (next + (spine.length - g.context.locals.length)) extra ∧
      Local.AllIn (.leveled L fun _ => False) (g.context.locals ++ extra) ∧
      type.In ((leveled L fun _ => False).pushAll (g.context.locals ++ extra)) 0 := by
  have htarget := (hg.instantiate hμ).target
  rw [leveled_pushAll] at htarget
  obtain ⟨hcount, hfresh, hextra, htype⟩ := openArguments_in hL henv hμ htarget h.opened
  rw [← leveled_pushAll] at hextra htype
  refine ⟨?_, hfresh, Local.allIn_append.mpr ⟨hg.context, hextra⟩, ?_⟩
  · have := h.solvable.length
    rw [length_append, hcount]
    omega
  · rwa [pushAll_append]

namespace Solvable

variable {env : Env} {s : Supply} {pattern m : Term} {g : Goal} {spine : List Id} {P : Id → Prop} {xs : List Local}

/-- Elements at the same place of two lists whose images are the same. -/
lemma eq_of_mem_zip {α β γ : Type} {f : β → γ} {g : α → γ} {as : List α} {bs : List β} (h : bs.map f = as.map g)
    {a : α} {b : β} (hab : (a, b) ∈ as.zip bs) : f b = g a := by
  induction as generalizing bs with
  | nil => simp at hab
  | cons a' as ih =>
    cases bs with
    | nil => simp at hab
    | cons b' bs =>
      simp only [map_cons, List.cons.injEq] at h
      rcases mem_cons.mp hab with heq | hab
      · obtain ⟨rfl, rfl⟩ := Prod.mk.inj heq
        exact h.1
      · exact ih h.2 hab

/-- The solution on the hypotheses of the pattern is the term that the pattern was to be. -/
lemma conv_solution (h : Solvable s pattern m g spine) (hm : m.In (.plain P) 0)
    (hxs : Local.AllIn (.plain fun _ => False) xs) (hnodup : (xs.map Local.id).Nodup)
    (hlen : xs.length = spine.length) :
    env.Conv (((m.subst (spine.zip (xs.map Local.term))).abs xs).apply (spine.map .free)) m := by
  have hlen' : xs.length = (spine.map Term.free).length := by simpa using hlen
  have hcomputes : env.Computes ⟨""⟩ _ _ := .abs_apply hxs (h.renamed_in hm hlen) hlen'
  suffices heq : (m.subst (spine.zip (xs.map Local.term))).replace (Replacement.id.putAll xs (spine.map .free)) = m by
    rw [heq] at hcomputes
    exact hcomputes.conv
  rw [subst_eq_replace, replace_replace]
  · refine (hm.of_isSupportedBy h.supported).replace_eq_self ?_
    intro x hx
    -- the hypothesis goes to its binder, and the binder back to it
    show (((spine.zip (xs.map Local.term)).lookup x).getD (.free x)).replace _ = .free x
    cases hlookup : (spine.zip (xs.map Local.term)).lookup x with
    | none => exact absurd hlookup (lookup_zip_ne_none (by simp [hlen]) hx)
    | some t => exact eq_of_mem_zip (Replacement.id.putAll_terms hlen' hnodup) (mem_of_lookup_eq_some hlookup)
  · intro p hp
    obtain ⟨y, hy, hyp⟩ := mem_map.mp (of_mem_zip hp).2
    exact hyp ▸ trivial

end Solvable

end Env

end ProofAssistant
