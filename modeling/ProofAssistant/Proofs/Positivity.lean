import Mathlib.Data.List.Perm.Subperm
import ProofAssistant.Proofs.AlphaEquivalence
import ProofAssistant.Proofs.RecursorRule

/-!
# Positivity and universes of inductive types

What keeps an inductive type from contradiction is that a field is of the type itself or does not mention it
(`InductiveSpec.StrictlyPositive`), and that no field lives in a larger universe than the type
(`InductiveSpec.Predicative`). Both speak of the constructor's type as it is declared, not of how it is checked.

Every declaration that is accepted has both properties, unless it is a proposition under every assignment of its
universe parameters, which eliminates into propositions only (`Env.addInductive_positive_predicative`).
-/

namespace ProofAssistant

open List

variable {type target m t : Term}

open Fueled

/-! ## Types as they are declared -/

/-- The type leads to `rest` once hypotheses of the types of its first variables are put for them, up to reduction. -/
inductive Env.TakesParams (env : Env) : List Local → (type rest : Term) → Prop
  | nil {rest : Term} : TakesParams env [] rest rest
  | cons {x : Local} {xs : List Local} {type t b rest : Term} {y : Name} {i : Bool} {fuel fuel' next : Nat} :
    env.whnf fuel type = some (.pi y i t b) → env.isDefEq fuel' next t x.type = some true →
    TakesParams env xs (b.instantiate x.term) rest → TakesParams env (x :: xs) type rest

/-- The term is a product over the hypotheses, which leads to `rest`. -/
inductive Term.Opens : (m : Term) → List Local → (rest : Term) → Prop
  | nil {rest : Term} : Opens rest [] rest
  | cons {x : Local} {xs : List Local} {i : Bool} {b rest : Term} :
    Opens (b.instantiate x.term) xs rest → Opens (.pi x.name i x.type b) (x :: xs) rest

namespace InductiveSpec

variable {rest : Term} {params : List Local} {Γ : Context}

/-- A field that is flagged as recursive is of the type itself, and any other does not mention it. -/
def FieldPositive (spec : InductiveSpec) (params : List Local) (field : Local) (recursive : Bool) : Prop :=
  recursive = false ∧ field.type.containsConst spec.name = false ∨
    recursive = true ∧ field.type = spec.selfApp params

/-- After the parameters, the type of the constructor is a product over the fields, flagged as they occur, into the type
itself. -/
structure StrictlyPositive (env : Env) (spec : InductiveSpec) (params : List Local) (k : Constructor)
    (fields : List Local) : Prop where
  opens : ∃ rest, env.TakesParams params k.type rest ∧ rest.Opens fields (spec.selfApp params)
  apart : ((params ++ fields).map Local.id).Nodup
  numFields : k.numFields = fields.length
  flags : List.Forall₂ (spec.FieldPositive params) fields k.recursive

/-- Each field has a universe, given the parameters and the fields before it, that is at most `sort` under every
valuation. -/
def Predicative (env : Env) (spec : InductiveSpec) (params : List Local) (sort : Level) (fields : List Local) :
    Prop :=
  ∀ before x after, fields = before ++ x :: after → ∃ next l,
    env.InfersSort spec.levelParams next ⟨params ++ before⟩ x.type l ∧ ∀ v, l.value v ≤ sort.value v

/-- The recursor takes the parameters and then a motive that leads into the sort of level `l`. -/
def MotiveIn (spec : InductiveSpec) (params : List Local) (recursor : Decl) (l : Level) : Prop :=
  ∃ (motive : Local) (others : List Local) (body : Term),
    recursor.type = body.pis (params ++ motive :: others) ∧ motive.type = .pi ⟨"t"⟩ false (spec.selfApp params) (.sort l)

/-! ## Parameters and fields -/

variable {env : Env} {spec : InductiveSpec} {fuel next : Nat}

lemma takesParams_of_openParams {count : Nat}
    (h : (spec.openParams env fuel count next target).Yields (params, rest)) : env.TakesParams params target rest := by
  induction count generalizing next target params with
  | zero =>
    obtain ⟨rfl, rfl⟩ := h
    exact .nil
  | succ count ih =>
    obtain ⟨x, i, t, b, params', hwhnf, hrec, rfl⟩ := openParams_succ h
    have hconv : env.isDefEq 1 next t (Local.new next x t).type = some true :=
      Env.isDefEq_of_alphaEq t.alphaEq_refl
    exact .cons hwhnf hconv (ih hrec)

lemma takesParams_of_passParams {c : Name × Term}
    (h : (passParams env spec fuel next Γ c params type).Yields rest) : env.TakesParams params type rest := by
  induction params generalizing type with
  | nil => exact yields_pure.mp h ▸ .nil
  | cons x params ih =>
    obtain ⟨y, i, t, b, hwhnf, hconv, hrec⟩ := passParams_cons h
    exact .cons hwhnf hconv (ih hrec)

/-- A constant on hypotheses has no binders and no constructors, so it is written in one way only. -/
lemma eq_selfApp_of_alphaEq (h : m.alphaEq (spec.selfApp params)) : m = spec.selfApp params := by
  rw [Term.alphaEq_iff, selfApp] at h
  rw [selfApp]
  generalize hhead : Term.const spec.name spec.levels = f at h ⊢
  have hf : ∀ m, m.Alike f → m = f := by
    intro m hm
    subst hhead
    cases hm
    rfl
  clear hhead
  induction params generalizing f m with
  | nil => exact hf m h
  | cons x params ih =>
    refine ih (f.app x.term) h fun m' hm' => ?_
    cases hm' with
    | app hm hx =>
      cases hx
      rw [hf _ hm]
      rfl

lemma fieldPositive_of_fieldIsRecursive {c x : Name} {recursive : Bool}
    (h : (spec.fieldIsRecursive (spec.selfApp params) Γ c t).Yields recursive) :
    spec.FieldPositive params (.new next x t) recursive := by
  unfold fieldIsRecursive at h
  cases hmention : t.containsConst spec.name with
  | false =>
    simp only [hmention, Bool.not_false, if_true, yields_pure] at h
    exact .inl ⟨h.symm, hmention⟩
  | true =>
    simp only [hmention, Bool.not_true, Bool.false_eq_true, if_false] at h
    split at h
    · split at h
      · rename_i hself
        exact .inr ⟨(yields_pure.mp h).symm, eq_selfApp_of_alphaEq hself.2⟩
      · simp at h
    · simp at h

/-- One induction over the fields, for all that is found out about them. -/
lemma openFields_positive {sort : Level} {c : Name} {Γ' : Context} {fields : List (Local × Bool)}
    (h : (openFields env spec sort (spec.selfApp params) c fuel next Γ type).Yields (fields, Γ', rest)) :
    type.Opens (fields.map Prod.fst) rest ∧
    List.Forall₂ (spec.FieldPositive params) (fields.map Prod.fst) (fields.map Prod.snd) ∧
    (sort.isZero = false → ∀ before x after, fields.map Prod.fst = before ++ x :: after → ∃ next l,
      env.InfersSort spec.levelParams next ⟨Γ.locals ++ before⟩ x.type l ∧ ∀ v, l.value v ≤ sort.value v) := by
  induction fuel generalizing next Γ type fields with
  | zero => simp [openFields] at h
  | succ fuel ih =>
    cases type with
    | pi y i t b =>
      obtain ⟨recursive, fields', hrecursive, huniverse, hrec, rfl⟩ := openFields_pi h
      obtain ⟨hopens, hflags, hbound⟩ := ih hrec
      refine ⟨.cons hopens, .cons (fieldPositive_of_fieldIsRecursive hrecursive) hflags, ?_⟩
      intro hsort before x after hsplit
      cases before with
      | nil =>
        obtain ⟨l, hl, hle⟩ := huniverse hsort
        obtain ⟨rfl, -⟩ := List.cons.inj hsplit
        rw [append_nil]
        exact ⟨next, l, Env.infersSort_of_inferSort hl, fun v => Level.value_le_of_isLeq hle v⟩
      | cons y before =>
        obtain ⟨rfl, htail⟩ := List.cons.inj hsplit
        obtain ⟨next', l, hl, hle⟩ := hbound hsort before x after htail
        refine ⟨next', l, ?_, hle⟩
        simpa using hl
    | _ =>
      simp only [openFields] at h
      obtain ⟨rfl, -, rfl⟩ := h
      exact ⟨.nil, .nil, by simp⟩

/-! ## The universe of the motive -/

lemma elimCandidate_injective : Function.Injective elimCandidate := by
  intro i j h
  have hrepr {i j : Nat} (h : i.repr = j.repr) : i = j := by
    rw [Nat.repr_eq_ofList_toDigits, Nat.repr_eq_ofList_toDigits, String.ofList_inj] at h
    rw [← Nat.ofDigitChars_toDigits (b := 10) (n := i) (by omega) (by omega), h,
      Nat.ofDigitChars_toDigits (by omega) (by omega)]
  have hlen (i : Nat) : (elimCandidate 0).text.length < (elimCandidate (i + 1)).text.length := by
    show "u".length < ("u_" ++ (i + 1).repr).length
    rw [String.length_append]
    have hu : "u".length = 1 := rfl
    have hu' : "u_".length = 2 := rfl
    omega
  cases i with
  | zero =>
    cases j with
    | zero => rfl
    | succ j => exact absurd (hlen j) (by rw [h]; exact Nat.lt_irrefl _)
  | succ i =>
    cases j with
    | zero => exact absurd (hlen i) (by rw [h]; exact Nat.lt_irrefl _)
    | succ j =>
      have htext : "u_" ++ (i + 1).repr = "u_" ++ (j + 1).repr := congrArg Name.text h
      exact hrepr (String.append_right_inj _ |>.mp htext)

/-- A candidate is given up only if it and all before it are taken. -/
lemma elimCandidate_mem_of_freshElimLevel {taken : List Name} {bound i : Nat}
    (h : freshElimLevel taken bound i ∈ taken) : ∀ j ≤ bound, elimCandidate (i + j) ∈ taken := by
  induction bound generalizing i with
  | zero =>
    intro j hj
    obtain rfl : j = 0 := by omega
    exact h
  | succ bound ih =>
    unfold freshElimLevel at h
    split at h
    · rename_i hi
      intro j hj
      cases j with
      | zero => exact hi
      | succ j =>
        have hnext := ih h j (by omega)
        rwa [show i + 1 + j = i + (j + 1) by omega] at hnext
    · rename_i hi
      exact absurd h hi

lemma freshElimLevel_notMem (taken : List Name) : freshElimLevel taken taken.length 0 ∉ taken := by
  intro h
  have hall := elimCandidate_mem_of_freshElimLevel h
  have hnodup : ((List.range (taken.length + 1)).map elimCandidate).Nodup :=
    nodup_range.map elimCandidate_injective
  have hsubset : (List.range (taken.length + 1)).map elimCandidate ⊆ taken := by
    intro n hn
    obtain ⟨j, hj, rfl⟩ := mem_map.mp hn
    have hmem := hall j (by have := mem_range.mp hj; omega)
    rwa [Nat.zero_add] at hmem
  have hlen := (hnodup.subperm hsubset).length_le
  rw [length_map, length_range] at hlen
  omega

namespace Accepted

variable (a : Accepted env fuel next spec)
variable {o : OpenedCtor}

lemma fields_apart (ho : o ∈ a.opened) : ((a.params ++ o.fields).map Local.id).Nodup := by
  have hnumbers : ((a.params ++ o.fields).map (·.id.number)).Nodup := by
    rw [map_append, a.params_numbers, a.fields_numbers ho]
    refine nodup_append.mpr ⟨nodup_range', nodup_range', fun i hi j hj => ?_⟩
    have hi := mem_range'_1.mp hi
    have hj := mem_range'_1.mp hj
    omega
  exact .of_map Id.number (by rwa [map_map])

lemma strictlyPositive (ho : o ∈ a.opened) :
    spec.StrictlyPositive (env.insert spec.decl) a.params o.ctor o.fields := by
  have hapart := a.fields_apart ho
  obtain ⟨c, hc, hacc⟩ := a.exists_ctor ho
  obtain ⟨rest, fields, Γ, result, hpass, hopen, hresult, rfl⟩ := hacc.opened
  obtain ⟨hopens, hflags, -⟩ := openFields_positive hopen
  rw [eq_selfApp_of_alphaEq hresult] at hopens
  exact ⟨⟨rest, takesParams_of_passParams hpass, hopens⟩, hapart, by simp, hflags⟩

lemma predicative (hsort : a.sort.isZero = false) (ho : o ∈ a.opened) :
    spec.Predicative (env.insert spec.decl) a.params a.sort o.fields := by
  obtain ⟨c, hc, hacc⟩ := a.exists_ctor ho
  obtain ⟨rest, fields, Γ, result, -, hopen, -, rfl⟩ := hacc.opened
  exact (openFields_positive hopen).2.2 hsort

lemma motiveIn : spec.MotiveIn a.params a.recursorDecl ((spec.elimLevel a.sort).map Level.param |>.getD .zero) := by
  refine ⟨a.motive, a.minors ++ [a.major], a.motive.term.app a.major.term, ?_, rfl⟩
  rw [a.recursorDecl_type]
  simp

end Accepted

end InductiveSpec

namespace Env

open InductiveSpec

/-- An inductive type that is accepted is strictly positive and predicative. Each field of a constructor is of the type
itself and flagged as recursive, or does not mention it. Either the sort is zero under every valuation, and the motive
of the recursor leads into propositions; or no field has a larger universe than the type, and the universe parameter of
the motive is none of those of the type. -/
theorem addInductive_positive_predicative {env env' : Env} {fuel next : Nat} {spec : InductiveSpec}
    (h : (env.addInductive fuel next spec).Yields env') :
    ∃ t params target fields recursor, env'.inductive? spec.name = some t ∧
      env'.get? t.recursor = some recursor ∧ recursor.kind = .recursor spec.name ∧
      params.length = spec.numParams ∧ t.numParams = spec.numParams ∧
      env.TakesParams params spec.type target ∧ env.whnf fuel target = some (.sort t.sort) ∧
      t.ctors.map (fun k => (k.name, k.type)) = spec.ctors ∧
      List.Forall₂ (spec.StrictlyPositive (env.insert spec.decl) params) t.ctors fields ∧
      ((∀ v, t.sort.value v = 0) ∧ t.elimLevel = none ∧ recursor.levelParams = spec.levelParams ∧
          spec.MotiveIn params recursor .zero ∨
        (∀ xs ∈ fields, spec.Predicative (env.insert spec.decl) params t.sort xs) ∧
          ∃ u, u ∉ spec.levelParams ∧ t.elimLevel = some u ∧ recursor.levelParams = u :: spec.levelParams ∧
            spec.MotiveIn params recursor (.param u)) := by
  obtain ⟨a, rfl⟩ := yields_addInductive h
  have hmotive := a.motiveIn
  refine ⟨a.info, a.params, a.target, a.opened.map (·.fields), a.recursorDecl, a.inductive?_result,
    a.get?_recursor, rfl, a.params_length, rfl, takesParams_of_openParams a.paramsOpened, a.target_whnf, ?ctors,
    ?positive, ?universes⟩
  case ctors =>
    have hctors := a.ctors
    show (a.opened.map (·.ctor)).map _ = _
    generalize a.opened = os, spec.ctors = cs at hctors
    induction hctors with
    | nil => rfl
    | cons hc _ ih =>
      obtain ⟨_, _, _, _, _, _, _, rfl⟩ := hc.opened
      rw [List.map_cons, List.map_cons, ih]
  case positive =>
    show List.Forall₂ _ (a.opened.map (·.ctor)) _
    rw [List.forall₂_map_left_iff, List.forall₂_map_right_iff, List.forall₂_same]
    exact fun o ho => a.strictlyPositive ho
  case universes =>
    cases hsort : a.sort.isZero with
    | true =>
      have helim : spec.elimLevel a.sort = none := by simp [elimLevel, hsort]
      refine .inl ⟨fun v => Level.value_eq_zero_of_isZero hsort v, helim, ?_, ?_⟩
      · simp [Accepted.recursorDecl, helim]
      · simpa [helim] using hmotive
    | false =>
      have helim : spec.elimLevel a.sort = some (freshElimLevel spec.levelParams spec.levelParams.length 0) := by
        simp [elimLevel, hsort]
      refine .inr ⟨fun xs hxs => ?_, _, freshElimLevel_notMem _, helim, ?_, ?_⟩
      · obtain ⟨o, ho, rfl⟩ := List.mem_map.mp hxs
        exact a.predicative hsort ho
      · simp [Accepted.recursorDecl, helim]
      · simpa [helim] using hmotive

/-- Lists over a type of any universe: a field of the element type and one of the type itself. -/
def lists : InductiveSpec where
  name := ⟨"List"⟩
  levelParams := [⟨"u"⟩]
  numParams := 1
  type := .pi ⟨"α"⟩ false (.sort (.succ (.param ⟨"u"⟩))) (.sort (.succ (.param ⟨"u"⟩)))
  ctors :=
    let list (α : Term) : Term := .app (.const ⟨"List"⟩ [.param ⟨"u"⟩]) α
    [(⟨"List.nil"⟩, .pi ⟨"α"⟩ false (.sort (.succ (.param ⟨"u"⟩))) (list (.var 0))),
      (⟨"List.cons"⟩, .pi ⟨"α"⟩ false (.sort (.succ (.param ⟨"u"⟩)))
        (.pi ⟨"x"⟩ false (.var 0) (.pi ⟨"xs"⟩ false (list (.var 1)) (list (.var 2)))))]

/-- The name `u` is taken by the list type, so its recursor leads into the universe `u_1`. -/
theorem lists_positive_predicative : ∃ env t params fields, (({} : Env).addInductive 40 0 lists).Yields env ∧
    env.inductive? ⟨"List"⟩ = some t ∧ t.ctors.map Constructor.recursive = [[], [false, true]] ∧
    List.Forall₂ (lists.StrictlyPositive (({} : Env).insert lists.decl) params) t.ctors fields ∧
    (∀ xs ∈ fields, lists.Predicative (({} : Env).insert lists.decl) params t.sort xs) ∧
    t.elimLevel = some ⟨"u_1"⟩ := by
  have hadd : ∃ env, (({} : Env).addInductive 40 0 lists).Yields env ∧ ∃ t, env.inductive? ⟨"List"⟩ = some t ∧
      t.ctors.map Constructor.recursive = [[], [false, true]] ∧ t.elimLevel = some ⟨"u_1"⟩ :=
    ⟨_, rfl, _, rfl, rfl, rfl⟩
  obtain ⟨env, hadd, t', ht', hflags, helim⟩ := hadd
  obtain ⟨t, params, _, fields, _, ht, _, _, _, _, _, _, _, hpositive, huniverses⟩ :=
    addInductive_positive_predicative hadd
  obtain rfl : t' = t := Option.some.inj (ht'.symm.trans ht)
  rcases huniverses with ⟨-, hnone, -, -⟩ | ⟨hpredicative, -⟩
  · simp [helim] at hnone
  · exact ⟨env, t', params, fields, hadd, ht, hflags, hpositive, hpredicative, helim⟩

end Env

end ProofAssistant
