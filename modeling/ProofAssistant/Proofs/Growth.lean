import Mathlib.Data.List.Dedup
import Mathlib.Logic.Relation
import ProofAssistant.Proofs.Answers
import ProofAssistant.Proofs.Scope

/-!
# How environments grow

`Env.Added env env'` says that one successful operation leads from `env` to `env'`, and `Env.Reachable` that an
environment comes from the empty one by such operations. What an operation is given has hypotheses with numbers below
`next` only.

A name that is declared stays declared, with the same meaning. Within one inductive declaration, however, a constructor
may take the name of the type or of the recursor, and this is the only way in which a name is declared twice
(`Env.names_declared_once_iff`).
-/

namespace ProofAssistant

open List Env

variable {d : Decl}

/-- The hypotheses in the term have numbers below `next`. -/
def Term.Below (next : Nat) (m : Term) : Prop :=
  m.In { free := fun x => x.number < next } m.looseBound

/-- The hypotheses in the types of the declaration have numbers below `next`. -/
def InductiveSpec.Below (next : Nat) (spec : InductiveSpec) : Prop :=
  spec.type.Below next ∧ ∀ c ∈ spec.ctors, c.2.Below next

namespace Env

variable {env env' : Env} {c : Name} {fuel next : Nat} {params : List Name} {type : Term}

open Fueled

/-! ## What each operation adds -/

@[simp] lemma yields_checkFresh {m : Term} {u : Unit} :
    (env.checkFresh c m).Yields u ↔ c.isValid ∧ env.get? c = none := by
  unfold checkFresh
  cases hv : c.isValid <;> cases hg : env.get? c <;> simp

lemma yields_addPostulate : (env.addPostulate fuel next c params type).Yields env' ↔ (c.isValid ∧ env.get? c = none) ∧
      (∃ l, (env.inferSort params fuel next {} type).Yields l) ∧ env' = env.insert ⟨c, params, type, .postulate⟩ := by
  unfold addPostulate
  simp only [yields_bind, yields_checkFresh, yields_pure]
  constructor
  · rintro ⟨_, hc, l, hl, rfl⟩
    exact ⟨hc, ⟨l, hl⟩, rfl⟩
  · rintro ⟨hc, ⟨l, hl⟩, rfl⟩
    exact ⟨(), hc, l, hl, rfl⟩

lemma yields_addDefinition {value : Term} : (env.addDefinition fuel next c params type value).Yields env' ↔
      (c.isValid ∧ env.get? c = none) ∧ (∃ l, (env.inferSort params fuel next {} type).Yields l) ∧
      (env.check params fuel next {} value type).Yields () ∧
      env' = env.insert ⟨c, params, type, .definition value (env.height value + 1)⟩ := by
  unfold addDefinition
  simp only [yields_bind, yields_checkFresh, yields_pure]
  constructor
  · rintro ⟨_, hc, l, hl, _, hv, rfl⟩
    exact ⟨hc, ⟨l, hl⟩, hv, rfl⟩
  · rintro ⟨hc, ⟨l, hl⟩, hv, rfl⟩
    exact ⟨(), hc, l, hl, (), hv, rfl⟩

lemma yields_addTheorem {proof : Term} : (env.addTheorem fuel next c params type proof).Yields env' ↔
      (c.isValid ∧ env.get? c = none) ∧ (∃ l, (env.inferSort params fuel next {} type).Yields l ∧ l.isZero) ∧
      (env.check params fuel next {} proof type).Yields () ∧ env' = env.insert ⟨c, params, type, .proven proof⟩ := by
  unfold addTheorem
  simp only [yields_bind, yields_checkFresh]
  constructor
  · rintro ⟨_, hc, l, hl, h⟩
    cases hz : l.isZero <;> simp [hz] at h
    obtain ⟨⟨_, hv⟩, rfl⟩ := h
    exact ⟨hc, ⟨l, hl, hz⟩, hv, rfl⟩
  · rintro ⟨hc, ⟨l, hl, hz⟩, hv, rfl⟩
    refine ⟨(), hc, l, hl, ?_⟩
    simp [hz, hv]

lemma yields_addClass : (env.addClass c).Yields env' ↔ (env.inductive? c).isSome ∧
      env' = { env with classes := c :: env.classes, version := env.version + 1 } := by
  unfold addClass
  cases h : env.inductive? c <;> simp [eq_comm]

lemma addInstance_cases {priority : UInt32} (h : (env.addInstance c priority).Yields env') : ∃ cls, env' = { env with
      instances := env.instances ++ [(cls, ⟨c, priority⟩)], version := env.version + 1 } := by
  unfold addInstance at h
  split at h
  · simp at h
  · split at h
    · rename_i cls _ _
      split at h
      · exact ⟨cls, (yields_pure.mp h).symm⟩
      · simp at h
    · simp at h

lemma addTrans_cases {left right rule : Name} (h : (env.addTrans left right rule).Yields env') : env' = { env with
      transRules := ((left, right), rule) :: env.transRules, version := env.version + 1 } := by
  obtain ⟨_, _, h⟩ := yields_bind.mp h
  exact (yields_pure.mp h).symm

end Env

/-! ### Inductive types -/

namespace InductiveSpec

variable {env : Env} {spec : InductiveSpec} {fuel next : Nat}

open Fueled

/-- A constructor that passed the checks: its parameters passed, its fields taken off, and its result
the type itself. -/
structure CtorAccepted (env : Env) (spec : InductiveSpec) (fuel next : Nat) (params : List Local)
    (sort : Level) (c : Name × Term) (o : OpenedCtor) : Prop where
  typed : ∃ l, (env.inferSort spec.levelParams fuel next {} c.2).Yields l
  opened : ∃ rest fields Γ result,
    (passParams env spec fuel next ⟨params⟩ c params c.2).Yields rest ∧
    (openFields env spec sort (spec.selfApp params) c.1 fuel next ⟨params⟩ rest).Yields
      (fields, Γ, result) ∧
    result.alphaEq (spec.selfApp params) ∧
    o = ⟨⟨c.1, c.2, fields.length, fields.map Prod.snd⟩, fields.map Prod.fst⟩

lemma ctorAccepted_of_yields {params : List Local} {sort : Level} {c : Name × Term} {o : OpenedCtor}
    (h : (checkCtor env spec fuel next params sort c).Yields o) : CtorAccepted env spec fuel next params sort c o := by
  unfold checkCtor at h
  simp only [yields_bind] at h
  obtain ⟨l, hl, rest, hrest, ⟨fields, Γ, result⟩, hfields, h⟩ := h
  cases hr : result.alphaEq (spec.selfApp params) <;> simp [hr] at h
  exact ⟨⟨l, hl⟩, rest, fields, Γ, result, hrest, hfields, hr, h.symm⟩

lemma CtorAccepted.name_eq {params : List Local} {sort : Level} {c : Name × Term} {o : OpenedCtor}
    (h : CtorAccepted env spec fuel next params sort c o) : o.ctor.name = c.1 := by
  obtain ⟨_, _, _, _, _, _, _, rfl⟩ := h.opened
  rfl

/-- A declaration that passed all checks, with what they have found. -/
structure Accepted (env : Env) (fuel next : Nat) (spec : InductiveSpec) where
  params : List Local
  target : Term
  sort : Level
  opened : List OpenedCtor
  names : (spec.checkNames env).Yields ()
  typed : ∃ l, (env.inferSort spec.levelParams fuel next {} spec.type).Yields l
  paramsOpened : (spec.openParams env fuel spec.numParams next spec.type).Yields (params, target)
  target_whnf : env.whnf fuel target = some (.sort sort)
  ctors : List.Forall₂
    (CtorAccepted (env.insert spec.decl) spec fuel (next + spec.numParams) params sort)
    spec.ctors opened
  recursorTyped : ∃ l, (((env.insert spec.decl).insertInductive
      ⟨spec.name, spec.levelParams, spec.numParams, sort, opened.map (·.ctor), spec.recursor,
        spec.elimLevel sort⟩).inferSort ((spec.elimLevel sort).toList ++ spec.levelParams) fuel
      (next + spec.numParams + (opened.flatMap (·.fields)).length) {}
      (spec.recursorType (next + spec.numParams + (opened.flatMap (·.fields)).length) params
        (spec.elimLevel sort) opened)).Yields l

namespace Accepted

variable {env : Env} {fuel next : Nat} {spec : InductiveSpec} (a : Accepted env fuel next spec)

/-- What is recorded about the type. -/
def info : InductiveType :=
  ⟨spec.name, spec.levelParams, spec.numParams, a.sort, a.opened.map (·.ctor), spec.recursor,
    spec.elimLevel a.sort⟩

/-- The declarations of the constructors, in order. -/
def ctorDecls : List Decl :=
  (a.opened.map (·.ctor)).zipIdx.map fun (c, i) =>
    ⟨c.name, spec.levelParams, c.type, .constructor spec.name i⟩

/-- The first number that no hypothesis of the type and its constructors has. -/
def nextFree : Nat :=
  next + spec.numParams + (a.opened.flatMap (·.fields)).length

/-- The declaration of the recursor. -/
def recursorDecl : Decl :=
  ⟨spec.recursor, (spec.elimLevel a.sort).toList ++ spec.levelParams,
    spec.recursorType a.nextFree a.params (spec.elimLevel a.sort) a.opened, .recursor spec.name⟩

/-- The environment after the declaration. -/
def result : Env :=
  ((a.ctorDecls.foldl insert (env.insert spec.decl)).insert a.recursorDecl).insertInductive a.info

end Accepted

lemma yields_addInductive {env' : Env} (h : (env.addInductive fuel next spec).Yields env') :
    ∃ a : Accepted env fuel next spec, env' = a.result := by
  unfold Env.addInductive at h
  simp only [yields_bind] at h
  obtain ⟨_, hnames, l, hl, ⟨params, target⟩, hparams, s, hs, h⟩ := h
  rw [yields_ofOption] at hs
  split at h
  · rename_i sort
    simp only [yields_bind, yields_pure, yields_mapM] at h
    obtain ⟨opened, hopened, lr, hlr, rfl⟩ := h
    refine ⟨⟨params, target, sort, opened, hnames, ⟨l, hl⟩, hparams, hs,
      hopened.imp fun _ _ => ctorAccepted_of_yields, ⟨lr, hlr⟩⟩, ?_⟩
    simp only [Accepted.result, Accepted.ctorDecls, List.foldl_map]
    rfl
  · simp at h

end InductiveSpec

namespace Env

open Fueled InductiveSpec

lemma fresh_of_checkNames {env : Env} {spec : InductiveSpec} (h : (spec.checkNames env).Yields ()) :
    env.get? spec.name = none ∧ env.get? spec.recursor = none ∧
      (∀ c ∈ spec.ctors, env.get? c.1 = none) ∧ (spec.ctors.map Prod.fst).Nodup := by
  unfold checkNames at h
  simp only [yields_bind, yields_checkFresh, List.forM_eq_forM, yields_forM] at h
  obtain ⟨_, hname, _, hrec, hctors⟩ := h
  refine ⟨hname.2, hrec.2, fun c hc => ?_, ?_⟩
  · obtain ⟨_, hfresh, _⟩ := hctors c hc
    exact hfresh.2
  · rw [List.nodup_iff_count_le_one]
    intro n
    by_contra hgt
    have hmem : n ∈ spec.ctors.map Prod.fst := List.count_pos_iff.mp (by omega)
    obtain ⟨c, hc, rfl⟩ := List.mem_map.mp hmem
    obtain ⟨_, _, hcount⟩ := hctors c hc
    rw [List.count_eq_length_filter, filter_map, length_map] at hgt
    have hlt : 1 < (spec.ctors.filter (·.1 == c.1)).length := Nat.lt_of_not_le hgt
    simp [hlt] at hcount

/-! ## Reachable environments -/

/-- One successful operation leads from one environment to another. -/
inductive Added (env : Env) : Env → Prop
  | postulate {env' : Env} {fuel next : Nat} {c : Name} {params : List Name} {type : Term} :
    type.Below next → (env.addPostulate fuel next c params type).Yields env' → Added env env'
  | definition {env' : Env} {fuel next : Nat} {c : Name} {params : List Name} {type value : Term} :
    type.Below next → value.Below next →
    (env.addDefinition fuel next c params type value).Yields env' → Added env env'
  | proposition {env' : Env} {fuel next : Nat} {c : Name} {params : List Name} {type proof : Term} :
    type.Below next → proof.Below next →
    (env.addTheorem fuel next c params type proof).Yields env' → Added env env'
  | family {env' : Env} {fuel next : Nat} {spec : InductiveSpec} :
    spec.Below next → (env.addInductive fuel next spec).Yields env' → Added env env'
  | classOf {env' : Env} {c : Name} : (env.addClass c).Yields env' → Added env env'
  | instanceOf {env' : Env} {c : Name} {priority : UInt32} :
    (env.addInstance c priority).Yields env' → Added env env'
  | transitivity {env' : Env} {left right rule : Name} :
    (env.addTrans left right rule).Yields env' → Added env env'

/-- The environment comes from the empty one by successful operations. -/
def Reachable (env : Env) : Prop :=
  Relation.ReflTransGen Added {} env

/-- A declaration that passed the checks, other than those of an inductive type. -/
inductive DeclAccepted (env : Env) : Decl → Prop
  | postulate {fuel next : Nat} {c : Name} {params : List Name} {type : Term} {l : Level} :
    type.Below next → (env.inferSort params fuel next {} type).Yields l →
    DeclAccepted env ⟨c, params, type, .postulate⟩
  | definition {fuel next : Nat} {c : Name} {params : List Name} {type value : Term} {l : Level} :
    type.Below next → value.Below next → (env.inferSort params fuel next {} type).Yields l →
    (env.check params fuel next {} value type).Yields () →
    DeclAccepted env ⟨c, params, type, .definition value (env.height value + 1)⟩
  | proposition {fuel next : Nat} {c : Name} {params : List Name} {type proof : Term} {l : Level} :
    type.Below next → proof.Below next → (env.inferSort params fuel next {} type).Yields l → l.isZero →
    (env.check params fuel next {} proof type).Yields () →
    DeclAccepted env ⟨c, params, type, .proven proof⟩

/-- What an operation does to the declarations: it makes one with a new name, or declares an inductive
type, or leaves them alone. -/
inductive Growth (env : Env) : Env → Prop
  | decl (d : Decl) : env.get? d.name = none → env.DeclAccepted d → Growth env (env.insert d)
  | family {fuel next : Nat} {spec : InductiveSpec} (a : Accepted env fuel next spec) :
    spec.Below next → Growth env a.result
  | registration {env' : Env} : env'.decls = env.decls → env'.inductives = env.inductives →
    env'.version = env.version + 1 → Growth env env'

lemma Added.growth {env env' : Env} (h : Added env env') : Growth env env' := by
  cases h with
  | postulate ht h =>
    obtain ⟨⟨_, hc⟩, ⟨l, hl⟩, rfl⟩ := yields_addPostulate.mp h
    exact .decl _ hc (.postulate ht hl)
  | definition ht hv h =>
    obtain ⟨⟨_, hc⟩, ⟨l, hl⟩, hcheck, rfl⟩ := yields_addDefinition.mp h
    exact .decl _ hc (.definition ht hv hl hcheck)
  | proposition ht hp h =>
    obtain ⟨⟨_, hc⟩, ⟨l, hl, hz⟩, hcheck, rfl⟩ := yields_addTheorem.mp h
    exact .decl _ hc (.proposition ht hp hl hz hcheck)
  | family hb h =>
    obtain ⟨a, rfl⟩ := yields_addInductive h
    exact .family a hb
  | classOf h =>
    obtain ⟨_, rfl⟩ := yields_addClass.mp h
    exact .registration rfl rfl rfl
  | instanceOf h =>
    obtain ⟨_, rfl⟩ := addInstance_cases h
    exact .registration rfl rfl rfl
  | transitivity h =>
    rw [addTrans_cases h]
    exact .registration rfl rfl rfl

/-! ### The declarations of an inductive type -/

lemma decls_foldl_insert (ds : List Decl) (env : Env) : (ds.foldl insert env).decls = ds.reverse ++ env.decls := by
  induction ds generalizing env with
  | nil => rfl
  | cons d ds ih => rw [List.foldl_cons, ih, insert]; simp

lemma version_foldl_insert (ds : List Decl) (env : Env) :
    (ds.foldl insert env).version = env.version + ds.length := by
  induction ds generalizing env with
  | nil => rfl
  | cons d ds ih => rw [List.foldl_cons, ih, insert, List.length_cons]; dsimp only; omega

lemma inductives_foldl_insert (ds : List Decl) (env : Env) : (ds.foldl insert env).inductives = env.inductives := by
  induction ds generalizing env with
  | nil => rfl
  | cons d ds ih => rw [List.foldl_cons, ih]; rfl

end Env

namespace InductiveSpec.Accepted

variable {env : Env} {fuel next : Nat} {spec : InductiveSpec} (a : Accepted env fuel next spec)

/-- The declarations that are made, the newest first. -/
def newDecls : List Decl :=
  a.recursorDecl :: (a.ctorDecls.reverse ++ [spec.decl])

lemma decls_result : a.result.decls = a.newDecls ++ env.decls := by
  show a.recursorDecl :: (a.ctorDecls.foldl insert (env.insert spec.decl)).decls = _
  rw [decls_foldl_insert, newDecls, cons_append, append_assoc]
  rfl

lemma inductives_result : a.result.inductives = a.info :: env.inductives := by
  show a.info :: (a.ctorDecls.foldl insert (env.insert spec.decl)).inductives = _
  rw [inductives_foldl_insert]
  rfl

lemma version_result : env.version < a.result.version := by
  show _ < (a.ctorDecls.foldl insert (env.insert spec.decl)).version + 1
  rw [version_foldl_insert]
  show _ < env.version + 1 + _ + 1
  omega

lemma ctors_names : (a.opened.map (·.ctor)).map Constructor.name = spec.ctors.map Prod.fst := by
  have h := a.ctors
  generalize a.opened = os, spec.ctors = cs at h
  induction h with
  | nil => rfl
  | cons hc _ ih => rw [List.map_cons, List.map_cons, List.map_cons, ih, hc.name_eq]

lemma ctorDecls_names : a.ctorDecls.map Decl.name = spec.ctors.map Prod.fst := by
  rw [← a.ctors_names, ctorDecls, List.map_map]
  conv_rhs => rw [← List.zipIdx_map_fst 0 (a.opened.map (·.ctor))]
  rw [List.map_map]
  rfl

lemma kind_of_mem_ctorDecls (hd : d ∈ a.ctorDecls) : ∃ i c, (a.opened.map (·.ctor))[i]? = some c ∧
      d = ⟨c.name, spec.levelParams, c.type, .constructor spec.name i⟩ := by
  obtain ⟨⟨c, i⟩, hc, rfl⟩ := List.mem_map.mp hd
  exact ⟨i, c, List.mem_zipIdx_iff_getElem?.mp hc, rfl⟩

lemma mem_ctorDecls {i : Nat} {c : Constructor} (h : a.info.ctors[i]? = some c) :
    ⟨c.name, spec.levelParams, c.type, .constructor spec.name i⟩ ∈ a.ctorDecls :=
  List.mem_map.mpr ⟨(c, i), List.mem_zipIdx_iff_getElem?.mpr h, rfl⟩

lemma get?_eq_none_of_new (hd : d ∈ a.newDecls) : env.get? d.name = none := by
  obtain ⟨hname, hrec, hctors, _⟩ := Env.fresh_of_checkNames a.names
  simp only [newDecls, List.mem_cons, List.mem_append, List.mem_reverse, List.not_mem_nil, or_false] at hd
  rcases hd with rfl | hd | rfl
  · exact hrec
  · have : d.name ∈ spec.ctors.map Prod.fst := a.ctorDecls_names ▸ List.mem_map_of_mem hd
    obtain ⟨c, hc, hcd⟩ := List.mem_map.mp this
    exact hcd ▸ hctors c hc
  · exact hname

/-- No declaration is made twice: of those that share a name, one is the type and another the recursor
or a constructor. -/
lemma nodup_newDecls : a.newDecls.Nodup := by
  obtain ⟨_, _, _, hnodup⟩ := Env.fresh_of_checkNames a.names
  have hctors : a.ctorDecls.Nodup := .of_map Decl.name (a.ctorDecls_names ▸ hnodup)
  have hkind : ∀ d ∈ a.ctorDecls, ∃ i, d.kind = .constructor spec.name i := by
    intro d hd
    obtain ⟨i, c, _, rfl⟩ := a.kind_of_mem_ctorDecls hd
    exact ⟨i, rfl⟩
  rw [newDecls, List.nodup_cons, List.nodup_append]
  refine ⟨fun hmem => ?_, List.nodup_reverse.mpr hctors, List.nodup_singleton _, ?_⟩
  · simp only [List.mem_append, List.mem_reverse] at hmem
    rcases hmem with hmem | hmem
    · obtain ⟨i, hi⟩ := hkind _ hmem
      simp [recursorDecl] at hi
    · simp [recursorDecl, decl] at hmem
  · rintro d hd _ hd' rfl
    obtain ⟨i, hi⟩ := hkind d (List.mem_reverse.mp hd)
    rw [List.mem_singleton.mp hd'] at hi
    simp [decl] at hi

end InductiveSpec.Accepted

namespace Env

variable {env env' : Env} {c : Name} {fuel next : Nat} {spec : InductiveSpec}

open InductiveSpec

lemma get?_eq_none_iff : env.get? c = none ↔ c ∉ env.order := by
  rw [get?, order]
  simp

lemma mem_order_iff : c ∈ env.order ↔ (env.get? c).isSome := by
  rw [← not_iff_not, ← get?_eq_none_iff]
  simp

private lemma find?_append_of_fresh {new old : List Decl} (hd : old.find? (·.name == c) = some d)
    (hnew : ∀ d' ∈ new, d'.name ≠ c) : (new ++ old).find? (·.name == c) = some d := by
  rw [List.find?_append, List.find?_eq_none.mpr (by simpa using hnew)]
  exact hd

lemma Growth.get?_eq (h : Growth env env') (hd : env.get? c = some d) : env'.get? c = some d := by
  cases h with
  | decl d' hnew _ =>
    have hne : d'.name ≠ c := fun he => by simp [he, hd] at hnew
    rw [get?_insert, if_neg (by simpa using hne), hd]
  | family a _ =>
    have hnew : ∀ d' ∈ a.newDecls, d'.name ≠ c := by
      rintro d' hd' rfl
      exact absurd (a.get?_eq_none_of_new hd') (by simp [hd])
    rw [get?, a.decls_result]
    exact find?_append_of_fresh hd hnew
  | registration hdecls _ _ => rw [get?, hdecls]; exact hd

lemma Growth.decls_suffix (h : Growth env env') : env.decls <:+ env'.decls := by
  cases h with
  | decl d _ _ => exact List.suffix_cons d env.decls
  | family a _ =>
    rw [a.decls_result]
    exact List.suffix_append _ _
  | registration hdecls _ _ => exact hdecls ▸ List.suffix_refl _

lemma Growth.version_lt (h : Growth env env') : env.version < env'.version := by
  cases h with
  | decl d _ _ => exact Nat.lt_succ_self _
  | family a _ => exact a.version_result
  | registration _ _ hv => omega

/-! ## Names that are declared twice -/

/-- No constructor has the name of its type or of the recursor. -/
def CtorNamesApart (env : Env) : Prop :=
  ∀ t ∈ env.inductives, ∀ c ∈ t.ctors, c.name ≠ t.name ∧ c.name ≠ t.recursor

/-- The declaration first made under a name. -/
def first? (env : Env) (c : Name) : Option Decl :=
  env.decls.reverse.find? (·.name == c)

lemma extend_ne (n : Name) (suffix : String) : n.extend suffix ≠ n := by
  intro h
  have hlen : (n.text ++ "." ++ suffix).length = n.text.length :=
    congrArg (fun m : Name => m.text.length) h
  simp only [String.length_append] at hlen
  have : (".".length : Nat) = 1 := rfl
  omega

lemma order_result (a : Accepted env fuel next spec) :
    a.result.order = env.order ++ (spec.name :: (spec.ctors.map Prod.fst ++ [spec.recursor])) := by
  rw [order, a.decls_result, ← a.ctorDecls_names]
  simp [order, decl, Accepted.newDecls, Accepted.recursorDecl]

lemma get?_eq_none_of_mem_names (a : Accepted env fuel next spec)
    (hc : c ∈ spec.name :: (spec.ctors.map Prod.fst ++ [spec.recursor])) : env.get? c = none := by
  obtain ⟨hname, hrec, hctors, _⟩ := fresh_of_checkNames a.names
  simp only [List.mem_cons, List.mem_append, List.mem_map, List.not_mem_nil, or_false] at hc
  rcases hc with rfl | ⟨x, hx, rfl⟩ | rfl
  · exact hname
  · exact hctors x hx
  · exact hrec

/-- The names stay pairwise distinct exactly if the constructors take neither of the two names that
come with them. -/
lemma nodup_order_result_iff (a : Accepted env fuel next spec) : a.result.order.Nodup ↔ env.order.Nodup ∧
      ∀ c ∈ a.info.ctors, c.name ≠ spec.name ∧ c.name ≠ spec.recursor := by
  obtain ⟨_, _, _, hnodup⟩ := fresh_of_checkNames a.names
  have hiff : (∀ c ∈ a.info.ctors, c.name ≠ spec.name ∧ c.name ≠ spec.recursor) ↔
      spec.name ∉ spec.ctors.map Prod.fst ∧ spec.recursor ∉ spec.ctors.map Prod.fst := by
    rw [← a.ctors_names]
    simp only [Accepted.info, List.mem_map, not_exists, not_and]
    constructor
    · intro h
      exact ⟨fun c hc he => (h c hc).1 he, fun c hc he => (h c hc).2 he⟩
    · intro h c hc
      exact ⟨h.1 c hc, h.2 c hc⟩
  rw [order_result, hiff]
  simp only [List.nodup_cons, List.nodup_append, hnodup, List.mem_append, List.mem_singleton, not_or]
  have hne : spec.name ≠ spec.recursor := (extend_ne spec.name "rec").symm
  constructor
  · rintro ⟨h, ⟨⟨h₁, _⟩, _, _, h₂⟩, _⟩
    exact ⟨h, h₁, fun hm => h₂ _ hm _ rfl rfl⟩
  · rintro ⟨h, h₁, h₂⟩
    refine ⟨h, ⟨⟨h₁, hne⟩, trivial, ⟨List.not_mem_nil, List.nodup_nil⟩, ?_⟩, ?_⟩
    · rintro c hc _ rfl rfl
      exact h₂ hc
    · rintro c hc _ hc' rfl
      exact get?_eq_none_iff.mp (get?_eq_none_of_mem_names a hc') hc

/-- The names are pairwise distinct exactly if no constructor takes one of the two names that come with
it. -/
lemma nodup_order_iff (h : Reachable env) : env.order.Nodup ↔ env.CtorNamesApart := by
  induction h with
  | refl => simp [order, CtorNamesApart]
  | @tail env env' _ hadd ih =>
    cases hadd.growth with
    | decl d hnew _ =>
      have hfresh : d.name ∉ env.order := get?_eq_none_iff.mp hnew
      rw [order_insert, List.nodup_append, show CtorNamesApart (env.insert d) ↔ _ from ih.symm]
      simp only [List.nodup_singleton, List.mem_singleton, true_and, and_iff_left_iff_imp]
      rintro _ c hc _ rfl rfl
      exact hfresh hc
    | family a _ =>
      rw [nodup_order_result_iff, ih]
      simp only [CtorNamesApart, a.inductives_result, List.forall_mem_cons]
      exact and_comm
    | registration hdecls hind _ =>
      rw [order, hdecls, CtorNamesApart, hind]
      exact ih

lemma nodup_decls (h : Reachable env) : env.decls.Nodup := by
  induction h with
  | refl => exact List.nodup_nil
  | @tail env env' _ hadd ih =>
    cases hadd.growth with
    | decl d hnew _ =>
      refine List.nodup_cons.mpr ⟨fun hd => ?_, ih⟩
      rw [get?, List.find?_eq_none] at hnew
      simpa using hnew d hd
    | family a _ =>
      rw [a.decls_result, List.nodup_append]
      refine ⟨a.nodup_newDecls, ih, ?_⟩
      rintro d hd _ hd' rfl
      have hnew := a.get?_eq_none_of_new hd
      rw [get?, List.find?_eq_none] at hnew
      simpa using hnew d hd'
    | registration hdecls _ _ => exact hdecls ▸ ih

/-- Among distinct declarations, searches by name from both ends agree exactly if no two share a name. -/
lemma find?_reverse_eq_iff {ds : List Decl} (hds : ds.Nodup) :
    (∀ c, ds.find? (·.name == c) = ds.reverse.find? (·.name == c)) ↔ (ds.map Decl.name).Nodup := by
  induction ds with
  | nil => simp
  | cons d ds ih =>
    obtain ⟨hd, hds⟩ := List.nodup_cons.mp hds
    rw [List.map_cons, List.nodup_cons, ← ih hds]
    simp only [List.reverse_cons, List.find?_append, List.find?_cons]
    constructor
    · intro h
      have hnone : ds.reverse.find? (·.name == d.name) = none := by
        have hc := h d.name
        cases hf : ds.reverse.find? (·.name == d.name) with
        | none => rfl
        | some d' =>
          rw [hf] at hc
          simp only [beq_self_eq_true, Option.some_or, Option.some.injEq] at hc
          subst hc
          exact absurd (List.mem_reverse.mp (mem_of_find?_eq_some hf)) hd
      refine ⟨?_, fun c => ?_⟩
      · simpa using hnone
      · by_cases hc : d.name = c
        · subst hc
          rw [hnone]
          simpa using hnone
        · have hc' := h c
          simpa [beq_eq_false_iff_ne.mpr hc] using hc'
    · rintro ⟨hname, h⟩ c
      rw [← h c]
      by_cases hc : d.name = c
      · subst hc
        have hnone : ds.find? (·.name == d.name) = none := by
          simpa using hname
        simp [hnone]
      · simp [beq_eq_false_iff_ne.mpr hc]

/-- The order lists exactly the declared names, what a name means survives every operation, and every operation advances
the version. The order lists no name twice, the size counts the declared names, and a name means what was first declared
under it, exactly if no constructor takes the name of its type or of the recursor. -/
theorem names_declared_once_iff {env : Env} (h : Reachable env) :
    (∀ c, c ∈ env.order ↔ (env.get? c).isSome) ∧
    (env.order.Nodup ↔ env.CtorNamesApart) ∧
    (env.size = env.order.dedup.length ↔ env.CtorNamesApart) ∧
    ((∀ c, env.get? c = env.first? c) ↔ env.CtorNamesApart) ∧
    ∀ env', Added env env' →
      env.version < env'.version ∧ ∀ c d, env.get? c = some d → env'.get? c = some d := by
  have hnodup := nodup_order_iff h
  have hsize : env.size = env.order.length := by simp [size, order]
  refine ⟨fun c => mem_order_iff, hnodup, ?_, ?_, fun env' hadd => ⟨hadd.growth.version_lt, ?_⟩⟩
  · rw [← hnodup, hsize, ← List.dedup_eq_self, eq_comm]
    exact ⟨(List.dedup_sublist env.order).eq_of_length, congrArg List.length⟩
  · rw [← hnodup, order, List.map_reverse, List.nodup_reverse]
    exact find?_reverse_eq_iff (nodup_decls h)
  · exact fun c d hd => hadd.growth.get?_eq hd

/-- The type `T : Type` whose only constructor is called as its recursor is. -/
def recursorNamedTwice : InductiveSpec :=
  ⟨⟨"T"⟩, [], 0, .type, [(⟨"T.rec"⟩, .const ⟨"T"⟩ [])]⟩

/-- A constructor may be called as the recursor. The name is then listed twice and means the
recursor. -/
theorem recursor_declared_twice : ∃ env, Reachable env ∧ env.order = [⟨"T"⟩, ⟨"T.rec"⟩, ⟨"T.rec"⟩] ∧
    env.size ≠ env.order.dedup.length ∧ ¬ (∀ c, env.get? c = env.first? c) := by
  have hadd : ∃ env, (({} : Env).addInductive 10 0 recursorNamedTwice).Yields env ∧
      env.order = [⟨"T"⟩, ⟨"T.rec"⟩, ⟨"T.rec"⟩] := ⟨_, rfl, rfl⟩
  obtain ⟨env, hyields, horder⟩ := hadd
  have hbelow : recursorNamedTwice.Below 0 := by
    simp [InductiveSpec.Below, recursorNamedTwice, Term.Below, Term.type, Term.In]
  have hreach : Reachable env := .single (.family hbelow hyields)
  obtain ⟨_, hnodup, hsize, hfirst, _⟩ := names_declared_once_iff hreach
  have hapart : ¬ env.CtorNamesApart := fun h => absurd (hnodup.mpr h) (by simp [horder])
  exact ⟨env, hreach, horder, fun h => hapart (hsize.mp h), fun h => hapart (hfirst.mp h)⟩

end Env

end ProofAssistant
