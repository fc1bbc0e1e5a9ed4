import ProofAssistant.Proofs.ConstructorFields
import ProofAssistant.Proofs.TacticAlphabet

/-!
# Environments over an alphabet

`Alphabet.Carries A env` says that the declarations of `env` with names in the alphabet are over it, and that all that
is registered is in it. An elaborator for such an environment stays over the alphabet (`Alphabet.Carries.covers`).

Every way to extend an environment preserves this. For an inductive type that is a matter of its recursor
(`Alphabet.Carries.family`).
-/

namespace ProofAssistant

open List Env Term Local InductiveSpec

variable {Γ : Context} {c : Name}

open Fueled

variable {A : Alphabet} {env : Env}

/-- The names that proofs by decision procedures, rewriting and compiled clauses are made of. -/
structure Alphabet.Standard (A : Alphabet) : Prop where
  const : ∀ c ∈ ["Eq", "Eq.refl", "Eq.symm", "Eq.subst", "Nat.le_refl", "Nat.le_step"], A.const ⟨c⟩
  nat : A.family ⟨"Nat"⟩

/-- What the environment has under names of the alphabet is over the alphabet, and so is all that it has
registered. -/
structure Alphabet.Carries (A : Alphabet) (env : Env) : Prop where
  terms : ∀ d ∈ env.decls, A.const d.name → ∀ m ∈ d.terms, m.Over A
  ctors : ∀ t ∈ env.inductives, A.family t.name → ∀ k ∈ t.ctors, k.type.Over A
  families : ∀ d ∈ env.decls, ∀ t i, d.kind = .constructor t i → A.const d.name → A.family t
  eliminates : ∀ t ∈ env.inductives, A.const t.name → A.family t.name ∧ A.const t.recursor
  instances : ∀ p ∈ env.instances, A.const p.2.name
  rules : ∀ left right c, env.transRule? left right = some c → A.const c

/-! ## Decision procedures -/

namespace Decider

lemma over_leProof (hA : A.Standard) {lhs : Term} (hlhs : lhs.Over A) (steps : Nat) :
    (leProof lhs steps).1.Over A ∧ (leProof lhs steps).2.Over A := by
  induction steps with
  | zero => exact ⟨hlhs, over_apply.mpr ⟨hA.const "Nat.le_refl" (by simp), by simp [hlhs]⟩⟩
  | succ steps ih =>
    refine ⟨⟨hA.nat, ih.1⟩, over_apply.mpr ⟨hA.const "Nat.le_step" (by simp), ?_⟩⟩
    simp [hlhs, ih.1, ih.2]

/-- What the procedures propose is made of the target and of the declarations they rely on. -/
lemma over_of_defaults (hA : A.Standard) (henv : A.CoversEnv env) {d : Decider} (hd : d ∈ defaults)
    {fuel next : Nat} {target proof : Term} (htarget : target.Over A)
    (h : d.decide env fuel next Γ target = some (some proof)) : proof.Over A := by
  simp only [defaults, mem_cons, not_mem_nil, or_false] at hd
  rcases hd with rfl | rfl
  · simp only [reflexivity] at h
    split at h
    · rename_i e he
      obtain ⟨htype, hlhs, -⟩ := htarget.equation? he
      obtain ⟨answer, _, h⟩ := Option.bind_eq_some_iff.mp h
      split at h
      · obtain rfl := Option.some.inj (Option.some.inj h)
        exact over_apply.mpr ⟨hA.const "Eq.refl" (by simp), by simp [htype, hlhs]⟩
      · simp at h
    · simp at h
  · simp only [natLe] at h
    obtain ⟨target', hwhnf, h⟩ := Option.bind_eq_some_iff.mp h
    have hargs := (henv.whnf hwhnf htarget).head_args.2
    split at h
    · rename_i c ls lhs rhs _ heq
      rw [heq] at hargs
      split at h
      · simp at h
      · obtain ⟨m, _, h⟩ := Option.bind_eq_some_iff.mp h
        obtain ⟨n, _, h⟩ := Option.bind_eq_some_iff.mp h
        split at h
        · split at h
          · obtain rfl := Option.some.inj (Option.some.inj h)
            exact (over_leProof hA (hargs lhs (by simp)) _).2
          · simp at h
        · simp at h
    · simp at h

end Decider

namespace Alphabet.Carries

lemma coversEnv (h : A.Carries env) : A.CoversEnv env where
  terms hd hc := h.terms _ (mem_of_find?_eq_some hd) (name_of_get? hd ▸ hc)
  ctors ht hn := by
    obtain ⟨hmem, rfl⟩ := name_of_inductive? ht
    exact h.ctors _ hmem hn

lemma covers {E : Elaborator} (h : A.Carries E.env) (hA : A.Standard)
    (hdeciders : E.deciders = Decider.defaults) : A.Covers E where
  toCoversEnv := h.coversEnv
  family hd hkind hc := h.families _ (mem_of_find?_eq_some hd) _ _ hkind (name_of_get? hd ▸ hc)
  eliminates ht hc := by
    obtain ⟨hmem, rfl⟩ := name_of_inductive? ht
    exact h.eliminates _ hmem hc
  instances i hi := by
    obtain ⟨p, hp, rfl⟩ := mem_map.mp hi
    exact h.instances p (mem_filter.mp hp).1
  rules := h.rules _ _ _
  equality c hc := hA.const c (by simp at hc ⊢; tauto)
  deciders hd _ htarget hdecide _ :=
    Decider.over_of_defaults hA h.coversEnv (hdeciders ▸ hd) htarget hdecide

/-! ## Extensions -/

lemma insert (h : A.Carries env) {d : Decl} (hterms : A.const d.name → ∀ m ∈ d.terms, m.Over A)
    (hkind : ∀ t i, d.kind = .constructor t i → A.const d.name → A.family t) : A.Carries (env.insert d) where
  terms := forall_mem_cons.mpr ⟨hterms, h.terms⟩
  ctors := h.ctors
  families := forall_mem_cons.mpr ⟨hkind, h.families⟩
  eliminates := h.eliminates
  instances := h.instances
  rules := h.rules

lemma insertAll (h : A.Carries env) {ds : List Decl} (hterms : ∀ d ∈ ds, ∀ m ∈ d.terms, m.Over A)
    (hkind : ∀ d ∈ ds, ∀ t i, d.kind = .constructor t i → A.family t) : A.Carries (ds.foldl Env.insert env) := by
  induction ds generalizing env with
  | nil => exact h
  | cons d ds ih =>
    rw [forall_mem_cons] at hterms hkind
    exact ih (h.insert (fun _ => hterms.1) fun t i hd _ => hkind.1 t i hd) hterms.2 hkind.2

lemma insertInductive (h : A.Carries env) {t : InductiveType} (hctors : ∀ k ∈ t.ctors, k.type.Over A)
    (hname : A.family t.name) (hrecursor : A.const t.recursor) : A.Carries (env.insertInductive t) where
  terms := h.terms
  ctors := forall_mem_cons.mpr ⟨fun _ => hctors, h.ctors⟩
  families := h.families
  eliminates := forall_mem_cons.mpr ⟨fun _ => ⟨hname, hrecursor⟩, h.eliminates⟩
  instances := h.instances
  rules := h.rules

section Extensions

variable {env' : Env} {fuel next : Nat} {c : Name} {params : List Name} {type value : Term}

section

variable (h : A.Carries env)
include h

lemma postulate (htype : type.Over A)
    (hadd : (env.addPostulate fuel next c params type).Yields env') : A.Carries env' := by
  obtain ⟨-, -, rfl⟩ := yields_addPostulate.mp hadd
  exact h.insert (fun _ => by simpa [Decl.terms] using htype) fun _ _ hkind => nomatch hkind

lemma definition (htype : type.Over A) (hvalue : value.Over A)
    (hadd : (env.addDefinition fuel next c params type value).Yields env') : A.Carries env' := by
  obtain ⟨-, -, -, rfl⟩ := yields_addDefinition.mp hadd
  exact h.insert (fun _ => by simpa [Decl.terms] using ⟨htype, hvalue⟩) fun _ _ hkind => nomatch hkind

lemma proposition (htype : type.Over A) (hproof : value.Over A)
    (hadd : (env.addTheorem fuel next c params type value).Yields env') : A.Carries env' := by
  obtain ⟨-, -, -, rfl⟩ := yields_addTheorem.mp hadd
  exact h.insert (fun _ => by simpa [Decl.terms] using ⟨htype, hproof⟩) fun _ _ hkind => nomatch hkind

lemma classOf (hadd : (env.addClass c).Yields env') : A.Carries env' := by
  obtain ⟨-, rfl⟩ := yields_addClass.mp hadd
  exact ⟨h.terms, h.ctors, h.families, h.eliminates, h.instances, h.rules⟩

lemma instanceOf (hc : A.const c) {priority : UInt32}
    (hadd : (env.addInstance c priority).Yields env') : A.Carries env' := by
  obtain ⟨cls, rfl⟩ := addInstance_cases hadd
  refine ⟨h.terms, h.ctors, h.families, h.eliminates, ?_, h.rules⟩
  exact forall_mem_append.mpr ⟨h.instances, forall_mem_singleton.mpr hc⟩

lemma transitivity (hc : A.const c) {left right : Name}
    (hadd : (env.addTrans left right c).Yields env') : A.Carries env' := by
  obtain rfl := addTrans_cases hadd
  refine ⟨h.terms, h.ctors, h.families, h.eliminates, h.instances, fun l r c' hc' => ?_⟩
  simp only [transRule?, lookup_cons] at hc'
  split at hc'
  · exact Option.some.inj hc' ▸ hc
  · exact h.rules l r c' hc'

end

end Extensions

end Alphabet.Carries

/-! ## Inductive types -/

/-- The names that come with the type, and its types, are over the alphabet. -/
structure InductiveSpec.Over (A : Alphabet) (spec : InductiveSpec) : Prop where
  const : A.const spec.name
  family : A.family spec.name
  recursor : A.const spec.recursor
  type : spec.type.Over A
  ctors : ∀ c ∈ spec.ctors, c.2.Over A

namespace InductiveSpec

variable {spec : InductiveSpec} {fuel next : Nat}
variable {rest : Term} {params : List Local}

lemma over_openParams (henv : A.CoversEnv env) {count : Nat} {target : Term} (htarget : target.Over A)
    (h : (spec.openParams env fuel count next target).Yields (params, rest)) : ∀ x ∈ params, x.type.Over A := by
  induction count generalizing next target params with
  | zero =>
    simp only [openParams, yields_pure, Prod.mk.injEq] at h
    simp [← h.1]
  | succ count ih =>
    obtain ⟨x, i, t, b, params', hwhnf, hrec, rfl⟩ := openParams_succ h
    have hpi := henv.whnf hwhnf htarget
    exact forall_mem_cons.mpr ⟨hpi.1, ih (hpi.2.instantiate (over_term _)) hrec⟩

lemma over_passParams (henv : A.CoversEnv env) {c : Name × Term} {type : Term} (htype : type.Over A)
    (h : (passParams env spec fuel next Γ c params type).Yields rest) : rest.Over A := by
  induction params generalizing type with
  | nil => exact yields_pure.mp h ▸ htype
  | cons x params ih =>
    obtain ⟨y, i, t, b, hwhnf, _, hrec⟩ := passParams_cons h
    exact ih ((henv.whnf hwhnf htype).2.instantiate x.over_term) hrec

lemma over_openFields {sort : Level} {selfApp : Term} {Γ' : Context} {type : Term} {fields : List (Local × Bool)}
    (htype : type.Over A) (h : (openFields env spec sort selfApp c fuel next Γ type).Yields (fields, Γ', rest)) :
    ∀ x ∈ fields.map Prod.fst, x.type.Over A := by
  induction fuel generalizing next Γ type fields with
  | zero => simp [openFields] at h
  | succ fuel ih =>
    rcases openFields_cases h with ⟨x, i, t, b, rfl⟩ | ⟨rfl, rfl⟩
    · obtain ⟨recursive, fields', _, _, hrec, rfl⟩ := openFields_pi h
      exact forall_mem_cons.mpr ⟨htype.1, ih (htype.2.instantiate (over_term _)) hrec⟩
    · simp

lemma Over.selfApp (hspec : spec.Over A) (params : List Local) : (spec.selfApp params).Over A :=
  over_apply.mpr ⟨hspec.const, over_terms params⟩

lemma Over.minorType (hspec : spec.Over A) (params : List Local) (motive : Local) (index : Nat)
    {c : OpenedCtor} (hc : ∀ x ∈ c.fields, x.type.Over A) : (spec.minorType next params motive index c).Over A := by
  refine Term.Over.pis ⟨motive.over_term, ?_⟩ (forall_mem_append.mpr ⟨hc, fun x hx => ?_⟩)
  · exact over_apply.mpr ⟨hspec.family, over_terms _⟩
  · obtain ⟨p, _, rfl⟩ := mem_map.mp hx
    exact ⟨motive.over_term, p.1.over_term⟩

lemma Over.recursorType (hspec : spec.Over A) (hparams : ∀ x ∈ params, x.type.Over A) (elim : Option Name)
    {ctors : List OpenedCtor} (hctors : ∀ c ∈ ctors, ∀ x ∈ c.fields, x.type.Over A) :
    (spec.recursorType next params elim ctors).Over A := by
  have hself := hspec.selfApp params
  refine Term.Over.pis ⟨over_term _, over_term _⟩ ?_
  simp only [forall_mem_append, forall_mem_singleton]
  refine ⟨⟨⟨hparams, hself, trivial⟩, fun x hx => ?_⟩, hself⟩
  obtain ⟨⟨c, i⟩, hc, rfl⟩ := mem_map.mp hx
  exact hspec.minorType params _ i (hctors c (fst_mem_of_mem_zipIdx hc))

namespace Accepted

variable (a : Accepted env fuel next spec)

lemma fields_over (henv : A.CoversEnv (env.insert spec.decl)) (hspec : spec.Over A) {o : OpenedCtor}
    (ho : o ∈ a.opened) : o.ctor.type.Over A ∧ ∀ x ∈ o.fields, x.type.Over A := by
  obtain ⟨c, hc, haccepted⟩ := a.exists_ctor ho
  obtain ⟨rest, fields, Γ, result, hpass, hopen, -, rfl⟩ := haccepted.opened
  have htype := hspec.ctors c hc
  exact ⟨htype, over_openFields (over_passParams henv htype hpass) hopen⟩

end Accepted

end InductiveSpec

lemma Alphabet.Carries.family (h : A.Carries env) {spec : InductiveSpec} (hspec : spec.Over A)
    {fuel next : Nat} {env' : Env} (hadd : (env.addInductive fuel next spec).Yields env') : A.Carries env' := by
  obtain ⟨a, rfl⟩ := yields_addInductive hadd
  have hdecl : A.Carries (env.insert spec.decl) :=
    h.insert (fun _ => by simpa [decl, Decl.terms] using hspec.type) fun _ _ hkind => nomatch hkind
  have hopened : ∀ o ∈ a.opened, o.ctor.type.Over A ∧ ∀ x ∈ o.fields, x.type.Over A :=
    fun o ho => a.fields_over hdecl.coversEnv hspec ho
  have hctors : ∀ k ∈ a.opened.map (·.ctor), k.type.Over A :=
    forall_mem_map.mpr fun o ho => (hopened o ho).1
  have hctorDecls : A.Carries (a.ctorDecls.foldl Env.insert (env.insert spec.decl)) := by
    refine hdecl.insertAll (fun d hd => ?_) fun d hd t i hkind => ?_
    · obtain ⟨i, k, hk, rfl⟩ := a.kind_of_mem_ctorDecls hd
      simpa [Decl.terms] using hctors k (mem_of_getElem? hk)
    · obtain ⟨_, _, _, rfl⟩ := a.kind_of_mem_ctorDecls hd
      exact (Decl.Kind.constructor.inj hkind).1 ▸ hspec.family
  have hrecursor : a.recursorDecl.type.Over A :=
    hspec.recursorType (over_openParams h.coversEnv hspec.type a.paramsOpened) _ fun o ho =>
      (hopened o ho).2
  refine insertInductive (hctorDecls.insert (fun _ => ?_) fun t i hkind => ?_) hctors hspec.family hspec.recursor
  · exact forall_mem_singleton.mpr hrecursor
  · simp [InductiveSpec.Accepted.recursorDecl] at hkind

/-! ## Leaving a name out -/

namespace Env

open InductiveSpec

/-- No declaration but that of the name itself mentions the name. -/
def Avoids (env : Env) (c : Name) : Prop :=
  ∀ d ∈ env.decls, d.name ≠ c → ∀ m ∈ d.terms, m.containsConst c = false

end Env

end ProofAssistant
