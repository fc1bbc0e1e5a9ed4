import ProofAssistant.Proofs.Comparison
import ProofAssistant.Proofs.Inference
import ProofAssistant.Proofs.InductiveChecks

/-!
# Environments are well founded

Each declaration is accepted in an environment of earlier declarations (`Env.founded`). So its terms are closed and
mention earlier names only, definitions are higher than what their values mention, and none unfolds to itself
(`Env.declarations_wellFounded`). In the order of `Env.declarations` this fails only where a constructor has the name of
its type (`Env.ordered_iff_ctor_names`).
-/

namespace ProofAssistant

open List Term Option Env Scope

variable {S : Scope} {k next : Nat} {c : Name} {ps : List Name} {P : Id → Prop} {env' : Env} {m : Term}
variable {env env'' : Env} {d : Decl} {t : InductiveType} {fuel : Nat} {spec : InductiveSpec}

open Fueled

/-! ## What an accepted term mentions -/

/-- The terms of a declaration: its type, and its value or its proof. -/
def Decl.terms (d : Decl) : List Term :=
  match d.kind with
  | .definition value _ => [d.type, value]
  | .proven proof => [d.type, proof]
  | _ => [d.type]

lemma Decl.type_mem_terms (d : Decl) : d.type ∈ d.terms := by
  unfold Decl.terms
  split <;> simp

namespace Term

variable {m : Term}

lemma leafwise_containsConst (c : Name) (R : Prop) : Leafwise fun _ m => m.containsConst c → R := by
  constructor <;> simp [containsConst, or_imp]

lemma leafwise_anyLevel (p : Level → Bool) (R : Prop) : Leafwise fun _ m => m.anyLevel p → R := by
  constructor <;> simp [anyLevel, or_imp]

lemma In.of_containsConst (h : m.In S k) (hc : m.containsConst c) : (∃ ls, S.const c ls) ∨ ∃ i ls, S.ctor c i ls := by
  refine (leafwise_in S).imp (leafwise_containsConst c _) (fun k m hm h hc => ?_) h hc
  cases m with
  | const d ls =>
    obtain rfl : d = c := by simpa [containsConst] using hc
    exact .inl ⟨ls, h⟩
  | ctor t i n ls =>
    obtain rfl : t = c := by simpa [containsConst] using hc
    exact .inr ⟨i, ls, h⟩
  | _ => simp_all [IsLeaf, containsConst]

/-- A term that does not mention a name is in the scope of the others. -/
lemma in_of_not_containsConst (h : m.containsConst c = false) :
    m.In { const := fun d _ => d ≠ c, ctor := fun t _ _ => t ≠ c } m.looseBound := by
  refine ((leafwise_containsConst c False).and leafwise_looseBound).imp (leafwise_in _) (fun k m hm h => ?_)
    ⟨by simp [h], Nat.le_refl _⟩
  cases m <;> simp_all [IsLeaf, In, containsConst, looseBound, Nat.succ_le_iff]

lemma In.exists_of_anyLevel {p : Level → Bool} (h : m.In (env.scope ps P) k) (hp : m.anyLevel p) :
    ∃ l, p l ∧ l.Admitted ps := by
  refine (leafwise_in _).imp (leafwise_anyLevel p _) (fun k m hm h hp => ?_) h hp
  cases m with
  | sort l => exact ⟨l, hp, h⟩
  | const c ls | ctor c _ _ ls =>
    obtain ⟨l, hl, hpl⟩ := any_eq_true.mp hp
    exact ⟨l, hpl, h.2 l hl⟩
  | _ => simp_all [IsLeaf, anyLevel]

end Term

namespace Env

variable {env : Env}

open InductiveSpec

/-! ## Declarations and their environments -/

/-- Every name of an environment is known in another one, with the same universe parameters. -/
structure Keeps (env env' : Env) : Prop where
  const : ∀ c d, env.get? c = some d → ∃ d', env'.get? c = some d' ∧ d'.levelParams = d.levelParams
  ctor : ∀ n t, env.inductive? n = some t → env'.inductive? n = some t

lemma Keeps.trans (h : env.Keeps env') (h' : env'.Keeps env'') : env.Keeps env'' where
  const c d hd := by
    obtain ⟨d', hd', heq⟩ := h.const c d hd
    obtain ⟨d'', hd'', heq'⟩ := h'.const c d' hd'
    exact ⟨d'', hd'', heq'.trans heq⟩
  ctor n t ht := h'.ctor n t (h.ctor n t ht)

lemma Keeps.scope_le (h : env.Keeps env') (ps : List Name) (P : Id → Prop) :
    (env.scope ps P).Le (env'.scope ps P) where
  const := by
    rintro c ls ⟨⟨d, hd, hlen⟩, hls⟩
    obtain ⟨d', hd', heq⟩ := h.const c d hd
    exact ⟨⟨d', hd', heq ▸ hlen⟩, hls⟩
  ctor := by
    rintro n i ls ⟨⟨t, ht, hi, hlen⟩, hls⟩
    exact ⟨⟨t, h.ctor n t ht, hi, hlen⟩, hls⟩

/-- The inductive types are declared, and their names do not unfold. -/
def FamiliesDeclared (env : Env) : Prop :=
  ∀ t ∈ env.inductives, ∃ d, env.get? t.name = some d ∧ ∀ v n, d.kind ≠ .definition v n

lemma name_of_get? (h : env.get? c = some d) : d.name = c := by
  simpa using find?_some h

lemma name_of_inductive? {n : Name} (h : env.inductive? n = some t) : t ∈ env.inductives ∧ t.name = n :=
  ⟨mem_of_find?_eq_some h, by simpa using find?_some h⟩

end Env

namespace InductiveSpec.Accepted

variable {env : Env} {fuel next : Nat} {spec : InductiveSpec} (a : Accepted env fuel next spec)
variable {d : Decl}

/-- A name means one of the new declarations, or what it meant before. -/
lemma get?_result (h : a.result.get? c = some d) : d ∈ a.newDecls ∨ env.get? c = some d := by
  rw [get?, a.decls_result, find?_append] at h
  rcases or_eq_some_iff.mp h with h | ⟨_, h⟩
  · exact .inl (mem_of_find?_eq_some h)
  · exact .inr h

/-- The name of the type means the type or a constructor. -/
lemma get?_result_name : ∃ d ∈ spec.decl :: a.ctorDecls, a.result.get? spec.name = some d := by
  have hmem : spec.name ∈ a.result.order := by simp [order_result]
  obtain ⟨d, hd⟩ := isSome_iff_exists.mp (mem_order_iff.mp hmem)
  obtain ⟨hfresh, _, _, _⟩ := fresh_of_checkNames a.names
  refine ⟨d, ?_, hd⟩
  rcases a.get?_result hd with hnew | hold
  · simp only [newDecls, mem_cons, mem_append, mem_reverse, not_mem_nil, or_false]
      at hnew
    rcases hnew with rfl | hnew | rfl
    · exact absurd (name_of_get? hd) (extend_ne spec.name "rec")
    · exact mem_cons_of_mem _ hnew
    · exact mem_cons_self
  · simp [hfresh] at hold

lemma levelParams_of_mem (hd : d ∈ spec.decl :: a.ctorDecls) : d.levelParams = spec.levelParams := by
  rcases mem_cons.mp hd with rfl | hd
  · rfl
  · obtain ⟨_, _, _, rfl⟩ := a.kind_of_mem_ctorDecls hd
    rfl

lemma kind_ne_definition (hd : d ∈ a.newDecls) (v : Term) (n : Nat) : d.kind ≠ .definition v n := by
  simp only [newDecls, mem_cons, mem_append, mem_reverse, not_mem_nil, or_false] at hd
  rcases hd with rfl | hd | rfl
  · simp [recursorDecl]
  · obtain ⟨_, _, _, rfl⟩ := a.kind_of_mem_ctorDecls hd
    simp
  · simp [decl]

end InductiveSpec.Accepted

namespace Env

variable {env : Env} {d : Decl}

open InductiveSpec

lemma familiesDeclared (h : Reachable env) : env.FamiliesDeclared := by
  induction h with
  | refl => simp [FamiliesDeclared]
  | @tail env env' _ hadd ih =>
    have hkeep : ∀ t ∈ env.inductives, ∃ d, env'.get? t.name = some d ∧ ∀ v n, d.kind ≠ .definition v n := by
      intro t ht
      obtain ⟨d, hd, hkind⟩ := ih t ht
      exact ⟨d, hadd.growth.get?_eq hd, hkind⟩
    cases hadd.growth with
    | decl d _ _ => exact hkeep
    | family a _ =>
      intro t ht
      rw [a.inductives_result] at ht
      rcases mem_cons.mp ht with rfl | ht
      · obtain ⟨d, hd, hget⟩ := a.get?_result_name
        refine ⟨d, hget, a.kind_ne_definition ?_⟩
        rcases mem_cons.mp hd with rfl | hd
        · simp [Accepted.newDecls]
        · simp [Accepted.newDecls, hd]
      · exact hkeep t ht
    | registration _ hind _ => exact fun t ht => hkeep t (hind ▸ ht)

/-- The names of an environment are known in every later one. -/
lemma Growth.keeps (hfam : env.FamiliesDeclared) (h : Growth env env') : env.Keeps env' where
  const _ d hd := ⟨d, h.get?_eq hd, rfl⟩
  ctor n t ht := by
    cases h with
    | decl d _ _ => exact ht
    | @family _ _ spec a _ =>
      obtain ⟨hmem, rfl⟩ := name_of_inductive? ht
      obtain ⟨d, hd, _⟩ := hfam t hmem
      have hne : a.info.name ≠ t.name := by
        intro (he : spec.name = t.name)
        have hfresh := (fresh_of_checkNames a.names).1
        simp [he, hd] at hfresh
      rw [inductive?, a.inductives_result, find?_cons_of_neg (by simpa using hne)]
      exact ht
    | registration _ hind _ => rw [inductive?, hind]; exact ht

/-! ### Scopes that contain the definitions -/

lemma Admits.insert (h : env.Admits S) (hd : ∀ v n, d.kind ≠ .definition v n) : (env.insert d).Admits S := by
  intro c ls d' v n hget hkind hlen hc
  rw [get?_insert] at hget
  split at hget
  · obtain rfl := some.inj hget
    exact absurd hkind (hd v n)
  · exact h c ls d' v n hget hkind hlen hc

/-- A scope that the instances of the terms of all declarations are in contains the definitions. -/
lemma admits_of_forall
    (h : ∀ d ∈ env.decls, ∀ m ∈ d.terms, ∀ ls, (m.instantiateLevelParams d.levelParams ls).In S 0) : env.Admits S := by
  intro c ls d v n hget hkind _ _
  exact h d (mem_of_find?_eq_some hget) v (by simp [Decl.terms, hkind]) ls

/-- The terms of each declaration are in the scope of an environment of earlier declarations. -/
def Founded (env : Env) : Prop :=
  ∀ d older, d :: older <:+ env.decls → ∃ E : Env, E.decls <:+ older ∧ E.FamiliesDeclared ∧
    E.Keeps env ∧ ∀ m ∈ d.terms, m.In (E.scope d.levelParams fun _ => False) 0

lemma exists_cons_suffix {ds : List Decl} (h : d ∈ ds) : ∃ older, d :: older <:+ ds := by
  obtain ⟨newer, older, rfl⟩ := append_of_mem h
  exact ⟨older, newer, rfl⟩

lemma Founded.terms_in (h : env.Founded) (hd : d ∈ env.decls) (hm : m ∈ d.terms) :
    m.In (env.scope d.levelParams fun _ => False) 0 := by
  obtain ⟨older, hsuffix⟩ := exists_cons_suffix hd
  obtain ⟨E, _, _, hkeeps, hin⟩ := h d older hsuffix
  exact (hin m hm).widen (hkeeps.scope_le _ _)

lemma admits_noFree_of_terms (h : ∀ d ∈ env.decls, ∀ m ∈ d.terms, m.In (env.scope d.levelParams fun _ => False) 0) :
    env.Admits noFree := by
  refine admits_of_forall fun d hd m hm ls => ?_
  rw [instantiateLevelParams_eq_mapLevels]
  exact (h d hd m hm).mapLevels_free _

lemma Founded.admits_noFree (h : env.Founded) : env.Admits noFree :=
  admits_noFree_of_terms fun _ hd _ hm => h.terms_in hd hm

lemma Infers.in_scope_nil {T : Term} (h : env.Infers ps next {} m T) (hm : m.Below next) :
    m.In (env.scope ps fun _ => False) 0 :=
  (h.in_scope hm).widen { free := fun _ hx => by simp [scope, Context.ids] at hx }

lemma scope_le_noFree (env : Env) (ps : List Name) : (env.scope ps fun _ => False).Le noFree :=
  le_of_free fun _ h => h

lemma DeclAccepted.in_scope (h : env.DeclAccepted d) :
    ∀ m ∈ d.terms, m.In (env.scope d.levelParams fun _ => False) 0 := by
  have htype {ps fuel next type l} (hb : type.Below next)
      (h : (env.inferSort ps fuel next {} type).Yields l) :
      type.In (env.scope ps fun _ => False) 0 := by
    obtain ⟨S, _, hS, _⟩ := infersSort_of_inferSort h
    exact hS.in_scope_nil hb
  have hvalue {ps fuel next value type} (hb : value.Below next)
      (h : (env.check ps fuel next {} value type).Yields ()) :
      value.In (env.scope ps fun _ => False) 0 := by
    obtain ⟨A, _, hA, _⟩ := checks_of_check h
    exact hA.in_scope_nil hb
  cases h with
  | postulate hb hl => simpa [Decl.terms] using htype hb hl
  | definition hb hbv hl hv => simpa [Decl.terms] using ⟨htype hb hl, hvalue hbv hv⟩
  | proposition hb hbp hl _ hp => simpa [Decl.terms] using ⟨htype hb hl, hvalue hbp hp⟩

end Env

namespace InductiveSpec.Accepted

variable {o : OpenedCtor}

open Env

variable {env : Env} {fuel next : Nat} {spec : InductiveSpec} (a : Accepted env fuel next spec)

include a in
lemma type_in (hb : spec.Below next) : spec.type.In (env.scope spec.levelParams fun _ => False) 0 := by
  obtain ⟨l, hl⟩ := a.typed
  obtain ⟨S, _, hS, _⟩ := infersSort_of_inferSort hl
  exact hS.in_scope_nil hb.1

/-- Each constructor that is recorded is one that was given and accepted. -/
lemma exists_ctor (ho : o ∈ a.opened) : ∃ c ∈ spec.ctors,
    CtorAccepted (env.insert spec.decl) spec fuel (next + spec.numParams) a.params a.sort c o := by
  have h := a.ctors
  generalize a.opened = os, spec.ctors = cs at h ho
  induction h with
  | nil => simp at ho
  | @cons c o' cs os hco _ ih =>
    rcases mem_cons.mp ho with rfl | ho
    · exact ⟨c, mem_cons_self, hco⟩
    · obtain ⟨c', hc', h'⟩ := ih ho
      exact ⟨c', mem_cons_of_mem _ hc', h'⟩

lemma ctor_type_in (hb : spec.Below next) (ho : o ∈ a.opened) :
    o.ctor.type.In ((env.insert spec.decl).scope spec.levelParams fun _ => False) 0 := by
  obtain ⟨c, hc, hacc⟩ := a.exists_ctor ho
  obtain ⟨l, hl⟩ := hacc.typed
  obtain ⟨S, _, hS, _⟩ := infersSort_of_inferSort hl
  obtain ⟨_, _, _, _, _, _, _, rfl⟩ := hacc.opened
  refine hS.in_scope_nil ((hb.2 c hc).widen { free := fun x hx => ?_ })
  exact Nat.lt_of_lt_of_le hx (Nat.le_add_right _ _)

lemma params_in (henv : env.Admits noFree) (hb : spec.Below next) : Local.AllIn noFree a.params :=
  openParams_in henv ((a.type_in hb).widen (scope_le_noFree _ _))
    a.paramsOpened

lemma fields_in (henv : env.Admits noFree) (hb : spec.Below next) (ho : o ∈ a.opened) :
    Local.AllIn (noFree.pushAll a.params) o.fields := by
  have htype := (a.ctor_type_in hb ho).widen (scope_le_noFree _ _)
  obtain ⟨c, hc, hacc⟩ := a.exists_ctor ho
  obtain ⟨rest, fields, Γ, result, hpass, hopen, _, rfl⟩ := hacc.opened
  have hadmits : (env.insert spec.decl).Admits (noFree.pushAll a.params) :=
    (henv.insert (by simp [decl])).pushAll a.params
  have hrest : rest.In (noFree.pushAll a.params) 0 :=
    passParams_in hadmits (fun x hx => in_pushAll_term hx)
      (htype.widen (noFree.le_pushAll _)) hpass
  exact (openFields_in hrest hopen).1

/-- The environment in which the type of the recursor is checked. -/
def withInfo : Env :=
  (env.insert spec.decl).insertInductive a.info

lemma recursor_type_in (henv : env.Admits noFree) (hb : spec.Below next) :
    a.recursorDecl.type.In (a.withInfo.scope a.recursorDecl.levelParams fun _ => False) 0 := by
  obtain ⟨l, hl⟩ := a.recursorTyped
  obtain ⟨S, _, hS, _⟩ := infersSort_of_inferSort hl
  refine hS.in_scope_nil ?_
  have hclosed : a.recursorDecl.type.In noFree 0 :=
    recursorType_in (a.params_in henv hb) fun o ho => a.fields_in henv hb ho
  exact hclosed.mono { free := fun _ (h : False) => h.elim } (Nat.zero_le _)

section

variable (hfam : env.FamiliesDeclared)
include hfam

lemma keeps_withType (hb : spec.Below next) :
    (env.insert spec.decl).Keeps a.result where
  const c d hd := by
    rw [get?_insert] at hd
    split at hd
    · rename_i hc
      obtain rfl := some.inj hd
      obtain rfl : spec.name = c := by simpa [decl] using hc
      obtain ⟨d', hd', hget⟩ := a.get?_result_name
      exact ⟨d', hget, a.levelParams_of_mem hd'⟩
    · exact ((Growth.family a hb).keeps hfam).const c d hd
  ctor := ((Growth.family a hb).keeps hfam).ctor

lemma keeps_withInfo (hb : spec.Below next) : a.withInfo.Keeps a.result where
  const := (a.keeps_withType hfam hb).const
  ctor n t ht := by
    rw [inductive?, a.inductives_result]
    exact ht

lemma familiesDeclared_withType : (env.insert spec.decl).FamiliesDeclared := by
  intro t ht
  obtain ⟨d, hd, hkind⟩ := hfam t ht
  rw [get?_insert]
  split
  · exact ⟨spec.decl, rfl, by simp [decl]⟩
  · exact ⟨d, hd, hkind⟩

lemma familiesDeclared_withInfo : a.withInfo.FamiliesDeclared := by
  intro t ht
  rcases mem_cons.mp ht with rfl | ht
  · refine ⟨spec.decl, ?_, by simp [decl]⟩
    show (env.insert spec.decl).get? spec.name = _
    simp [decl]
  · exact familiesDeclared_withType hfam t ht

/-- The constructors and the recursor are accepted where the type has been declared. -/
lemma terms_in (henv : env.Admits noFree) (hb : spec.Below next)
    (hd : d ∈ a.recursorDecl :: a.ctorDecls.reverse) :
    ∃ E : Env, E.decls = spec.decl :: env.decls ∧ E.FamiliesDeclared ∧ E.Keeps a.result ∧
      ∀ m ∈ d.terms, m.In (E.scope d.levelParams fun _ => False) 0 := by
  rcases mem_cons.mp hd with rfl | hd
  · refine ⟨a.withInfo, rfl, a.familiesDeclared_withInfo hfam, a.keeps_withInfo hfam hb, ?_⟩
    simpa [Decl.terms, recursorDecl] using a.recursor_type_in henv hb
  · obtain ⟨i, k, hk, rfl⟩ := a.kind_of_mem_ctorDecls (mem_reverse.mp hd)
    obtain ⟨o, ho, rfl⟩ := mem_map.mp (mem_of_getElem? hk)
    refine ⟨env.insert spec.decl, rfl, familiesDeclared_withType hfam, a.keeps_withType hfam hb, ?_⟩
    simpa [Decl.terms] using a.ctor_type_in hb ho

end

end InductiveSpec.Accepted

namespace Env

variable {d : Decl} {env : Env} {m : Term} {c : Name}

open InductiveSpec

/-- The head of a suffix is among the first of two lists, or the suffix is one of the second. -/
private lemma cons_suffix_append {older ds ds' : List Decl} (h : d :: older <:+ ds ++ ds') :
    d ∈ ds ∧ ds' <:+ older ∨ d :: older <:+ ds' := by
  obtain ⟨newer, h⟩ := h
  rcases append_eq_append_iff.mp h with ⟨between, rfl, hbetween⟩ | ⟨between, rfl, rfl⟩
  · cases between with
    | nil => exact .inr (hbetween ▸ suffix_refl _)
    | cons d' between =>
      obtain ⟨rfl, rfl⟩ := cons.inj hbetween
      exact .inl ⟨by simp, suffix_append _ _⟩
  · exact .inr (suffix_append _ _)

lemma founded (h : Reachable env) : env.Founded := by
  induction h with
  | refl => simp [Founded]
  | @tail env env' hreach hadd ih =>
    have hfam := familiesDeclared hreach
    have hkeeps := hadd.growth.keeps hfam
    -- what was declared before stays founded
    have hold : ∀ d older, d :: older <:+ env.decls → ∃ E : Env, E.decls <:+ older ∧
        E.FamiliesDeclared ∧ E.Keeps env' ∧ ∀ m ∈ d.terms, m.In (E.scope d.levelParams fun _ => False) 0 := by
      intro d older hsuffix
      obtain ⟨E, hE, hEfam, hEkeeps, hin⟩ := ih d older hsuffix
      exact ⟨E, hE, hEfam, hEkeeps.trans hkeeps, hin⟩
    cases hadd.growth with
    | decl d hnew hacc =>
      intro d' older hsuffix
      rcases suffix_cons_iff.mp hsuffix with heq | hsuffix
      · obtain ⟨rfl, rfl⟩ := cons.inj heq
        exact ⟨env, suffix_refl _, hfam, hkeeps, hacc.in_scope⟩
      · exact hold d' older hsuffix
    | @family fuel next spec a hb =>
      intro d older hsuffix
      have hdecls : a.result.decls = (a.recursorDecl :: a.ctorDecls.reverse) ++ spec.decl :: env.decls := by
        rw [a.decls_result, Accepted.newDecls]
        simp
      rw [hdecls] at hsuffix
      rcases cons_suffix_append hsuffix with ⟨hmem, holder⟩ | hsuffix
      · obtain ⟨E, hE, hEfam, hEkeeps, hin⟩ := a.terms_in hfam ih.admits_noFree hb hmem
        exact ⟨E, hE ▸ holder, hEfam, hEkeeps, hin⟩
      · rcases suffix_cons_iff.mp hsuffix with heq | hsuffix
        · obtain ⟨rfl, rfl⟩ := cons.inj heq
          refine ⟨env, suffix_refl _, hfam, hkeeps, ?_⟩
          simpa [Decl.terms, decl] using a.type_in hb
        · exact hold d older hsuffix
    | registration hdecls _ _ => rw [Founded, hdecls]; exact hold

/-- The terms of declarations are closed, with the universe parameters declared, and mention what is declared. -/
structure Scoped (env : Env) : Prop where
  terms : ∀ d ∈ env.decls, ∀ m ∈ d.terms, m.In (env.scope d.levelParams fun _ => False) 0
  ctors : ∀ n t, env.inductive? n = some t → ∀ k ∈ t.ctors,
    k.type.In (env.scope t.levelParams fun _ => False) 0

lemma ctors_declared (h : Reachable env) (ht : t ∈ env.inductives) {k : Constructor}
    (hk : k ∈ t.ctors) : ∃ d ∈ env.decls, d.name = k.name ∧ d.levelParams = t.levelParams ∧ d.type = k.type := by
  induction h with
  | refl => simp at ht
  | @tail env env' _ hadd ih =>
    have hold : t ∈ env.inductives →
        ∃ d ∈ env'.decls, d.name = k.name ∧ d.levelParams = t.levelParams ∧ d.type = k.type := by
      intro ht
      obtain ⟨d, hd, heq⟩ := ih ht
      exact ⟨d, hadd.growth.decls_suffix.subset hd, heq⟩
    cases hadd.growth with
    | decl d _ _ => exact hold ht
    | @family _ _ spec a _ =>
      rw [a.inductives_result] at ht
      rcases mem_cons.mp ht with rfl | ht
      · obtain ⟨i, hi⟩ := mem_iff_getElem?.mp hk
        have hmem := mem_reverse.mpr (a.mem_ctorDecls hi)
        refine ⟨⟨k.name, spec.levelParams, k.type, .constructor spec.name i⟩, ?_, rfl, rfl, rfl⟩
        rw [a.decls_result]
        exact mem_append_left _ (mem_cons_of_mem _ (mem_append_left _ hmem))
      · exact hold ht
    | registration _ hind _ => exact hold (hind ▸ ht)

lemma scoped_of_reachable (h : Reachable env) : env.Scoped where
  terms _ hd _ hm := (founded h).terms_in hd hm
  ctors n t ht k hk := by
    obtain ⟨d, hd, -, hlevels, htype⟩ := ctors_declared h (name_of_inductive? ht).1 hk
    exact hlevels ▸ htype ▸ (founded h).terms_in hd d.type_mem_terms

lemma Scoped.admits_noFree (h : env.Scoped) : env.Admits noFree :=
  admits_noFree_of_terms h.terms

lemma mem_order_of_containsConst (hfam : env.FamiliesDeclared) (hm : m.In (env.scope ps P) k)
    (hc : m.containsConst c) : c ∈ env.order := by
  rcases hm.of_containsConst hc with ⟨_, ⟨d, hd, _⟩, _⟩ | ⟨_, _, ⟨t, ht, _⟩, _⟩
  · exact mem_order_iff.mpr (by simp [hd])
  · obtain ⟨hmem, rfl⟩ := name_of_inductive? ht
    obtain ⟨d, hd, _⟩ := hfam t hmem
    exact mem_order_iff.mpr (by simp [hd])

lemma Founded.mentions_older (h : env.Founded) {older : List Decl} (hd : d :: older <:+ env.decls)
    (hm : m ∈ d.terms) (hc : m.containsConst c) : c ∈ older.map Decl.name := by
  obtain ⟨E, hE, hfam, _, hin⟩ := h d older hd
  have hmem := mem_order_of_containsConst hfam (hin m hm) hc
  rw [order, map_reverse, mem_reverse] at hmem
  obtain ⟨d', hd', rfl⟩ := mem_map.mp hmem
  exact mem_map_of_mem (hE.subset hd')

/-! ## Heights -/

lemma constHeight_le_height (hfam : env.FamiliesDeclared) (hm : m.In (env.scope ps P) k) (hc : m.containsConst c) :
    env.constHeight c ≤ env.height m := by
  induction m generalizing k with
  | const d ls =>
    obtain rfl : d = c := by simpa [containsConst] using hc
    exact Nat.le_refl _
  | ctor n i _ ls =>
    obtain rfl : n = c := by simpa [containsConst] using hc
    obtain ⟨⟨t, ht, _⟩, _⟩ := hm
    obtain ⟨hmem, rfl⟩ := name_of_inductive? ht
    obtain ⟨d, hd, hkind⟩ := hfam t hmem
    have hzero : env.constHeight t.name = 0 := by
      unfold constHeight
      rw [hd]
      split
      · rename_i v n heq
        exact absurd (some.inj heq) (hkind v n)
      · rfl
    omega
  | app f a ihf iha =>
    rcases Bool.or_eq_true_iff.mp hc with hc | hc
    · exact Nat.le_trans (ihf hm.1 hc) (Nat.le_max_left _ _)
    · exact Nat.le_trans (iha hm.2 hc) (Nat.le_max_right _ _)
  | lam x t b iht ihb | pi x _ t b iht ihb =>
    rcases Bool.or_eq_true_iff.mp hc with hc | hc
    · exact Nat.le_trans (iht hm.1 hc) (Nat.le_max_left _ _)
    · exact Nat.le_trans (ihb hm.2 hc) (Nat.le_max_right _ _)
  | _ => simp [containsConst] at hc

lemma Growth.constHeight_eq (h : Growth env env') (hc : c ∈ env.order) : env'.constHeight c = env.constHeight c := by
  obtain ⟨d, hd⟩ := isSome_iff_exists.mp (mem_order_iff.mp hc)
  rw [constHeight, constHeight, h.get?_eq hd, hd]

/-- A definition is higher than every name that its value mentions. -/
lemma constHeight_lt (h : Reachable env) (hd : d ∈ env.decls) {v : Term} {n : Nat}
    (hkind : d.kind = .definition v n) (hc : v.containsConst c) : env.constHeight c < n := by
  induction h with
  | refl => simp at hd
  | @tail env env' hreach hadd ih =>
    have hfam := familiesDeclared hreach
    have hold : d ∈ env.decls → env'.constHeight c < n := by
      intro hd
      obtain ⟨older, hsuffix⟩ := exists_cons_suffix hd
      have hmem := (founded hreach).mentions_older hsuffix (by simp [Decl.terms, hkind]) hc
      obtain ⟨d', hd', rfl⟩ := mem_map.mp hmem
      have horder : d'.name ∈ env.order := by
        rw [order, map_reverse, mem_reverse]
        exact mem_map_of_mem (hsuffix.subset (mem_cons_of_mem _ hd'))
      rw [hadd.growth.constHeight_eq horder]
      exact ih hd
    cases hadd.growth with
    | decl d' hnew hacc =>
      rcases mem_cons.mp hd with rfl | hd
      · have hin := hacc.in_scope v (by simp [Decl.terms, hkind])
        rw [hadd.growth.constHeight_eq (mem_order_of_containsConst hfam hin hc)]
        have hle := constHeight_le_height hfam hin hc
        cases hacc with
        | definition _ _ _ _ =>
          obtain ⟨rfl, rfl⟩ := Decl.Kind.definition.inj hkind
          omega
        | postulate _ _ => simp at hkind
        | proposition _ _ _ _ _ => simp at hkind
      · exact hold hd
    | family a _ =>
      rw [a.decls_result] at hd
      rcases mem_append.mp hd with hd | hd
      · exact absurd hkind (a.kind_ne_definition hd v n)
      · exact hold hd
    | registration hdecls _ _ => exact hold (hdecls ▸ hd)

/-- The value of the definition `c` mentions `c'`. -/
def Unfolds (env : Env) (c c' : Name) : Prop :=
  ∃ d v n, env.get? c = some d ∧ d.kind = .definition v n ∧ v.containsConst c'

lemma Unfolds.constHeight_lt (henv : Reachable env) {c' : Name} (h : env.Unfolds c c') :
    env.constHeight c' < env.constHeight c := by
  obtain ⟨d, v, n, hget, hkind, hc'⟩ := h
  have hn : env.constHeight c = n := by rw [constHeight, hget, map_some, hkind]
  exact hn ▸ Env.constHeight_lt henv (mem_of_find?_eq_some hget) hkind hc'

end Env

/-! ## Positions -/

lemma Term.containsConst_eq_of_alphaEq {m' : Term} (h : m.alphaEq m') (c : Name) :
    m.containsConst c = m'.containsConst c := by
  have halike := alphaEq_iff.mp h
  clear h
  induction halike <;> simp_all [containsConst]

lemma Term.containsConst_apply {as : List Term} (h : m.containsConst c) : (m.apply as).containsConst c := by
  induction as generalizing m with
  | nil => exact h
  | cons a as ih => exact ih (by simp [containsConst, h])

namespace InductiveSpec.Accepted

open Env

variable {env : Env} {fuel next : Nat} {spec : InductiveSpec} (a : Accepted env fuel next spec)

/-- The type of a constructor mentions the inductive type, since reduction does not make up the name that its result
has. -/
lemma ctor_type_mentions (henv : Reachable env) (hb : spec.Below next) {o : OpenedCtor} (ho : o ∈ a.opened) :
    o.ctor.type.containsConst spec.name := by
  have hclosed := (a.ctor_type_in hb ho).looseBound_le
  obtain ⟨c, hc, hacc⟩ := a.exists_ctor ho
  obtain ⟨rest, fields, Γ, result, hpass, hopen, halpha, rfl⟩ := hacc.opened
  by_contra hnot
  let S : Scope := { const := fun d _ => d ≠ spec.name, ctor := fun t _ _ => t ≠ spec.name }
  have hadmits : env.Admits S := by
    refine admits_of_forall fun d hd m hm ls => ?_
    obtain ⟨older, hsuffix⟩ := exists_cons_suffix hd
    have hnone : m.containsConst spec.name = false := by
      by_contra hmention
      have hmem := (founded henv).mentions_older hsuffix hm (by simpa using hmention)
      obtain ⟨d', hd', hname⟩ := mem_map.mp hmem
      have hfresh := (fresh_of_checkNames a.names).1
      rw [get?, find?_eq_none] at hfresh
      exact hfresh d' (hsuffix.subset (mem_cons_of_mem _ hd')) (by simpa using hname)
    obtain ⟨E, _, _, _, hin⟩ := founded henv d older hsuffix
    have hloose : m.looseBound ≤ 0 := (hin m hm).looseBound_le
    rw [instantiateLevelParams_eq_mapLevels]
    exact ((in_of_not_containsConst hnone).le hloose).mapLevels (fun _ h => h) (fun _ h => h)
      (fun _ h => h) (fun _ _ h => h) fun _ _ _ h => h
  have htype : c.2.In S 0 := (in_of_not_containsConst (by simpa using hnot)).le hclosed
  have hrest : rest.In S 0 :=
    passParams_in (hadmits.insert (by simp [decl])) (fun _ _ => trivial) htype hpass
  have hresult := (openFields_in hrest hopen).2
  have hself : result.containsConst spec.name := by
    rw [containsConst_eq_of_alphaEq halpha]
    exact containsConst_apply (by simp [containsConst])
  rcases hresult.of_containsConst hself with ⟨ls, hne⟩ | ⟨i, ls, hne⟩
  · rw [pushAll_const] at hne
    exact hne rfl
  · rw [pushAll_ctor] at hne
    exact hne rfl

end InductiveSpec.Accepted

namespace Env

variable {env : Env}

open InductiveSpec

/-- Every declared name has a declaration, so the declarations stand where their names do. -/
lemma getElem?_declarations (env : Env) (i : Nat) : env.declarations[i]? = env.order[i]?.bind env.get? := by
  have hsome : ∀ c ∈ env.order, (env.get? c).isSome := fun c hc => mem_order_iff.mp hc
  rw [declarations]
  generalize env.order = names at hsome
  induction names generalizing i with
  | nil => simp
  | cons c names ih =>
    rw [forall_mem_cons] at hsome
    obtain ⟨d, hd⟩ := isSome_iff_exists.mp hsome.1
    rw [filterMap_cons_some hd]
    cases i with
    | zero => simp [hd]
    | succ i => simpa using ih i hsome.2

/-- Each declaration, as its name means it now, mentions names that were declared before its own. -/
def Ordered (env : Env) : Prop :=
  ∀ i d, env.declarations[i]? = some d → ∀ m ∈ d.terms, ∀ c, m.containsConst c → c ∈ env.order.take i

lemma ordered_iff : env.Ordered ↔ ∀ i n d, env.order[i]? = some n → env.get? n = some d →
    ∀ m ∈ d.terms, ∀ c, m.containsConst c → c ∈ env.order.take i := by
  constructor
  · intro h i n d hn hd
    exact h i d (by rw [getElem?_declarations, hn]; exact hd)
  · intro h i d hd
    rw [getElem?_declarations] at hd
    obtain ⟨n, hn, hd⟩ := bind_eq_some_iff.mp hd
    exact h i n d hn hd

lemma Growth.order_prefix (h : Growth env env') : env.order <+: env'.order := by
  rw [order, order, map_reverse, map_reverse, reverse_prefix]
  exact h.decls_suffix.map _

/-- Declarations stay ordered exactly if the new ones are. -/
lemma Growth.ordered_iff (h : Growth env env') {names : List Name} (hnames : env'.order = env.order ++ names) :
    env'.Ordered ↔ env.Ordered ∧ ∀ j n d, names[j]? = some n → env'.get? n = some d →
        ∀ m ∈ d.terms, ∀ c, m.containsConst c → c ∈ env.order ++ names.take j := by
  have hindex : ∀ j, (env.order ++ names)[env.order.length + j]? = names[j]? := by
    intro j
    rw [getElem?_append_right (Nat.le_add_right _ _), Nat.add_sub_cancel_left]
  rw [Env.ordered_iff, Env.ordered_iff, hnames]
  constructor
  · intro hord
    refine ⟨fun i n d hn hd m hm c hc => ?_, fun j n d hn hd m hm c hc => ?_⟩
    · obtain ⟨hi, _⟩ := List.getElem?_eq_some_iff.mp hn
      have hmem := hord i n d (by rwa [getElem?_append_left hi]) (h.get?_eq hd) m hm c hc
      rwa [take_append_of_le_length (Nat.le_of_lt hi)] at hmem
    · have hmem := hord (env.order.length + j) n d ((hindex j).trans hn) hd m hm c hc
      rwa [take_length_add_append] at hmem
  · rintro ⟨hold, hnew⟩ i n d hn hd m hm c hc
    by_cases hi : i < env.order.length
    · rw [getElem?_append_left hi] at hn
      obtain ⟨d', hd'⟩ := isSome_iff_exists.mp (mem_order_iff.mp (mem_of_getElem? hn))
      obtain rfl : d' = d := some.inj ((h.get?_eq hd').symm.trans hd)
      rw [take_append_of_le_length (Nat.le_of_lt hi)]
      exact hold i n d' hn hd' m hm c hc
    · obtain ⟨j, rfl⟩ := Nat.exists_eq_add_of_le (Nat.le_of_not_lt hi)
      rw [take_length_add_append]
      exact hnew j n d ((hindex j).symm.trans hn) hd m hm c hc

/-- A constructor with the name of the type hides the type. -/
lemma get?_result_name_of_ctor (a : Accepted env fuel next spec)
    {k : Constructor} (hk : k ∈ a.info.ctors) (hname : k.name = spec.name) :
    ∃ d ∈ a.ctorDecls, a.result.get? spec.name = some d := by
  have hmem : spec.name ∈ a.ctorDecls.map Decl.name := by
    rw [a.ctorDecls_names, ← a.ctors_names, ← hname]
    exact mem_map_of_mem hk
  obtain ⟨d, hd, hdname⟩ := mem_map.mp hmem
  have hsome : (a.ctorDecls.reverse.find? (·.name == spec.name)).isSome := by
    rw [find?_isSome]
    exact ⟨d, mem_reverse.mpr hd, by simpa using hdname⟩
  obtain ⟨d', hd'⟩ := isSome_iff_exists.mp hsome
  refine ⟨d', mem_reverse.mp (mem_of_find?_eq_some hd'), ?_⟩
  have hne : (a.recursorDecl.name == spec.name) = false :=
    beq_eq_false_iff_ne.mpr (extend_ne spec.name "rec")
  rw [get?, a.decls_result, Accepted.newDecls, cons_append, find?_cons_of_neg (by simp [hne]),
    append_assoc, find?_append, hd']
  rfl

/-- An inductive declaration is ordered exactly if no constructor has the name of the type. -/
lemma ordered_result_iff (henv : Reachable env) (a : Accepted env fuel next spec) (hb : spec.Below next) :
    a.result.Ordered ↔ env.Ordered ∧ ∀ k ∈ a.info.ctors, k.name ≠ spec.name := by
  have hfam := familiesDeclared henv
  rw [(Growth.family a hb).ordered_iff (order_result a)]
  refine and_congr_right fun _ => ⟨fun h k hk hname => ?_, fun h j n d hn hd m hm c hc => ?_⟩
  · -- The constructor is what the name means, also where the type was declared.
    obtain ⟨d, hd, hget⟩ := get?_result_name_of_ctor a hk hname
    obtain ⟨i, k', hk', rfl⟩ := a.kind_of_mem_ctorDecls hd
    obtain ⟨o, ho, rfl⟩ := mem_map.mp (mem_of_getElem? hk')
    have hmem := h 0 spec.name _ rfl hget o.ctor.type (by simp [Decl.terms]) spec.name
      (a.ctor_type_mentions henv hb ho)
    rw [take_zero, append_nil] at hmem
    exact get?_eq_none_iff.mp (fresh_of_checkNames a.names).1 hmem
  · rcases a.get?_result hd with hnew | hold
    · rw [Accepted.newDecls, ← cons_append, mem_append] at hnew
      rcases hnew with hnew | hnew
      · obtain ⟨E, hE, hEfam, _, hin⟩ := a.terms_in hfam (founded henv).admits_noFree hb hnew
        have hmem := mem_order_of_containsConst hEfam (hin m hm) hc
        have horder : E.order = env.order ++ [spec.name] := by simp [order, hE, decl]
        rw [horder, mem_append, mem_singleton] at hmem
        rcases hmem with hmem | rfl
        · exact mem_append_left _ hmem
        · cases j with
          | succ j => simp
          | zero =>
            obtain rfl : spec.name = n := by simpa using hn
            have hdname := name_of_get? hd
            rcases mem_cons.mp hnew with rfl | hnew
            · exact absurd hdname (extend_ne spec.name "rec")
            · obtain ⟨i, k, hk, rfl⟩ := a.kind_of_mem_ctorDecls (mem_reverse.mp hnew)
              exact absurd hdname (h k (mem_of_getElem? hk))
      · obtain rfl := mem_singleton.mp hnew
        obtain rfl : m = spec.type := by simpa [Decl.terms, decl] using hm
        exact mem_append_left _ (mem_order_of_containsConst hfam (a.type_in hb) hc)
    · simp [get?_eq_none_of_mem_names a (mem_of_getElem? hn)] at hold

/-- Declarations are ordered exactly if no constructor has the name of its type. -/
lemma ordered_iff_ctor_names (h : Reachable env) :
    env.Ordered ↔ ∀ t ∈ env.inductives, ∀ k ∈ t.ctors, k.name ≠ t.name := by
  induction h with
  | refl => simp [Ordered, declarations, order]
  | @tail env env' hreach hadd ih =>
    have hgrowth := hadd.growth
    cases hadd.growth with
    | decl d hnew hacc =>
      rw [hgrowth.ordered_iff (order_insert env d), ih]
      refine and_iff_left fun j n d' hn hd' m hm c hc => mem_append_left _ ?_
      obtain rfl : n = d.name := by simpa using mem_of_getElem? hn
      obtain rfl : d = d' := by simpa using hd'
      exact mem_order_of_containsConst (familiesDeclared hreach) (hacc.in_scope m hm) hc
    | family a hb =>
      rw [ordered_result_iff hreach a hb, ih, a.inductives_result, forall_mem_cons]
      exact and_comm
    | registration hdecls hind _ =>
      have hget : env'.get? = env.get? := by funext c; rw [get?, get?, hdecls]
      rw [Ordered, declarations, order, hdecls, hget, hind]
      exact ih

/-- In every environment that the operations lead to:

* the terms of a declaration are closed, without holes and universe metavariables, and with the universe
  parameters of the declaration only;
* a declaration mentions names of earlier declarations only; where the declarations are listed by name,
  this is so exactly if no constructor has the name of its type, since such a name means the constructor
  also where the type was declared;
* a definition is higher than every name that its value mentions, so unfolding never comes back to it;
* later operations change neither what a declared name means nor the order of the names. -/
theorem declarations_wellFounded {env : Env} (h : Reachable env) :
    (∀ d ∈ env.decls, ∀ m ∈ d.terms, m.looseBound = 0 ∧ m.hasFree = false ∧ m.hasHole = false ∧
      m.hasLevelMVar = false ∧ ∀ p, m.anyLevel (·.params.contains p) → p ∈ d.levelParams) ∧
    (∀ d older, d :: older <:+ env.decls → ∀ m ∈ d.terms, ∀ c, m.containsConst c →
      c ∈ older.map Decl.name) ∧
    ((∀ i d, env.declarations[i]? = some d → ∀ m ∈ d.terms, ∀ c, m.containsConst c →
        c ∈ env.order.take i) ↔ ∀ t ∈ env.inductives, ∀ k ∈ t.ctors, k.name ≠ t.name) ∧
    (∀ d ∈ env.decls, ∀ v n, d.kind = .definition v n → ∀ c, v.containsConst c →
      env.constHeight c < n) ∧
    (∀ c, ¬ Relation.TransGen env.Unfolds c c) ∧
    ∀ env', Relation.ReflTransGen Added env env' →
      env.order <+: env'.order ∧ ∀ c d, env.get? c = some d → env'.get? c = some d := by
  refine ⟨fun d hd m hm => ?closed, fun d older hd m hm c => (founded h).mentions_older hd hm,
    ordered_iff_ctor_names h, fun d hd v n hkind c => constHeight_lt h hd hkind, fun c hc => ?cycle,
    fun env' hlater => ?later⟩
  case closed =>
    obtain ⟨older, hsuffix⟩ := exists_cons_suffix hd
    obtain ⟨E, _, _, _, hin⟩ := founded h d older hsuffix
    have hm := hin m hm
    refine ⟨Nat.le_zero.mp hm.looseBound_le, hm.hasFree_eq_false fun _ hx => hx,
      hm.hasHole_eq_false fun _ hx => hx, ?_, fun p hp => ?_⟩
    · by_contra hmvar
      obtain ⟨l, hl, hadmitted⟩ := hm.exists_of_anyLevel (by simpa [hasLevelMVar] using hmvar)
      simp [hadmitted.1] at hl
    · obtain ⟨l, hl, hadmitted⟩ := hm.exists_of_anyLevel hp
      exact hadmitted.2 p (by simpa using hl)
  case cycle =>
    have hlt : ∀ c c', Relation.TransGen env.Unfolds c c' → env.constHeight c' < env.constHeight c := by
      intro c c' hcc'
      induction hcc' with
      | single hstep => exact hstep.constHeight_lt h
      | tail _ hstep ih => exact Nat.lt_trans (hstep.constHeight_lt h) ih
    exact Nat.lt_irrefl _ (hlt c c hc)
  case later =>
    induction hlater with
    | refl => exact ⟨prefix_refl _, fun _ _ hd => hd⟩
    | tail _ hadd ih =>
      exact ⟨ih.1.trans hadd.growth.order_prefix, fun c d hd => hadd.growth.get?_eq (ih.2 c d hd)⟩

/-- The type `T : Type` whose only constructor is called `T` as well. -/
def ctorNamedAsType : InductiveSpec :=
  ⟨⟨"T"⟩, [], 0, .type, [(⟨"T"⟩, .const ⟨"T"⟩ [])]⟩

/-- A constructor may be called as its type. Its declaration then mentions its own name, but those that were made are
closed. -/
theorem ctor_hides_type : ∃ env, Reachable env ∧ env.declarations.map Decl.name =
      [⟨"T"⟩, ⟨"T"⟩, ⟨"T.rec"⟩] ∧
    ¬ (∀ i d, env.declarations[i]? = some d → ∀ m ∈ d.terms, ∀ c, m.containsConst c →
      c ∈ env.order.take i) ∧
    ∀ d ∈ env.decls, ∀ m ∈ d.terms, m.hasFree = false := by
  have hadd : ∃ env, (({} : Env).addInductive 10 0 ctorNamedAsType).Yields env ∧
      env.declarations.map Decl.name = [⟨"T"⟩, ⟨"T"⟩, ⟨"T.rec"⟩] ∧
      ∃ t ∈ env.inductives, ∃ k ∈ t.ctors, k.name = t.name :=
    ⟨_, rfl, rfl, _, mem_cons_self, _, mem_cons_self, rfl⟩
  obtain ⟨env, hyields, hnames, t, ht, k, hk, hname⟩ := hadd
  have hbelow : ctorNamedAsType.Below 0 := by
    simp [InductiveSpec.Below, ctorNamedAsType, Term.Below, Term.type, Term.In]
  have hreach : Reachable env := .single (.family hbelow hyields)
  obtain ⟨hclosed, _, hordered, _⟩ := declarations_wellFounded hreach
  exact ⟨env, hreach, hnames, fun h => hordered.mp h t ht k hk hname, fun d hd m hm => (hclosed d hd m hm).2.1⟩

end Env

end ProofAssistant
