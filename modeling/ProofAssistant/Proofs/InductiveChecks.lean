import ProofAssistant.Proofs.Growth
import ProofAssistant.Proofs.Steps
import ProofAssistant.Proofs.Telescope

/-!
# The checks of an inductive declaration

Three lemmas say what one step of the checks does to the type that it goes through, and later proofs go by induction
with them. First, parameters and fields are telescopes without outer hypotheses, so that the type of the recursor, which
is put together from them, has none at all (`InductiveSpec.recursorType_in`).
-/

namespace ProofAssistant

open List Term

variable {c : Name} {type selfApp : Term} {sort : Level} {Γ' : Context} {fields : List (Local × Bool)}

open Fueled

namespace InductiveSpec

variable {env : Env} {spec : InductiveSpec} {fuel next : Nat}
variable {rest : Term} {Γ : Context}

/-! ## What the checks of an inductive declaration do -/

lemma openParams_succ {count : Nat} {target : Term} {params : List Local}
    (h : (spec.openParams env fuel (count + 1) next target).Yields (params, rest)) :
    ∃ x i t b params', env.whnf fuel target = some (.pi x i t b) ∧
      (spec.openParams env fuel count (next + 1) (b.instantiate (Local.new next x t).term)).Yields
        (params', rest) ∧ params = .new next x t :: params' := by
  simp only [openParams, yields_bind, yields_ofOption] at h
  obtain ⟨target', hwhnf, h⟩ := h
  split at h
  · rename_i x i t b
    simp only [yields_bind] at h
    obtain ⟨⟨params', rest'⟩, hrec, rfl, rfl⟩ := h
    exact ⟨x, i, t, b, params', hwhnf, hrec, rfl⟩
  · simp at h

lemma passParams_cons {c : Name × Term} {x : Local} {params : List Local}
    (h : (passParams env spec fuel next Γ c (x :: params) type).Yields rest) :
    ∃ y i t b, env.whnf fuel type = some (.pi y i t b) ∧ env.isDefEq fuel next t x.type = some true ∧
      (passParams env spec fuel next Γ c params (b.instantiate x.term)).Yields rest := by
  simp only [passParams, yields_bind, yields_ofOption] at h
  obtain ⟨type', hwhnf, h⟩ := h
  split at h
  · rename_i y i t b
    simp only [yields_bind, yields_ofOption] at h
    obtain ⟨answer, hconv, h⟩ := h
    cases answer with
    | false => simp at h
    | true => exact ⟨y, i, t, b, hwhnf, hconv, by simpa using h⟩
  · simp at h

lemma openFields_pi {x : Name} {i : Bool} {t b : Term}
    (h : (openFields env spec sort selfApp c (fuel + 1) next Γ (.pi x i t b)).Yields (fields, Γ', rest)) :
    ∃ recursive fields', (spec.fieldIsRecursive selfApp Γ c t).Yields recursive ∧
      (sort.isZero = false → ∃ l, (env.inferSort spec.levelParams fuel next Γ t).Yields l ∧ l.isLeq sort) ∧
      (openFields env spec sort selfApp c fuel (next + 1) (Γ.add (.new next x t))
        (b.instantiate (Local.new next x t).term)).Yields (fields', Γ', rest) ∧
      fields = (.new next x t, recursive) :: fields' := by
  simp only [openFields, yields_bind] at h
  obtain ⟨recursive, hrec, h⟩ := h
  cases hz : sort.isZero with
  | true =>
    simp [hz] at h
    obtain ⟨fields', hopen, rfl⟩ := h
    exact ⟨recursive, fields', hrec, by simp, hopen, rfl⟩
  | false =>
    simp [hz] at h
    obtain ⟨l, hl, h⟩ := h
    cases hle : l.isLeq sort with
    | false => simp [hle] at h
    | true =>
      simp [hle] at h
      obtain ⟨fields', hopen, rfl⟩ := h
      exact ⟨recursive, fields', hrec, fun _ => ⟨l, hl, hle⟩, hopen, rfl⟩

/-- What remains of the type of a constructor is no product. -/
lemma openFields_cases (h : (openFields env spec sort selfApp c (fuel + 1) next Γ type).Yields (fields, Γ', rest)) :
    (∃ x i t b, type = .pi x i t b) ∨ fields = [] ∧ rest = type := by
  cases type with
  | pi x i t b => exact .inl ⟨x, i, t, b, rfl⟩
  | _ =>
    obtain ⟨rfl, _, rfl⟩ := h
    exact .inr ⟨rfl, rfl⟩

/-! ## The telescopes of an inductive declaration are in scope -/

end InductiveSpec

lemma Env.Admits.push {env : Env} {S : Scope} (h : env.Admits S) (x : Id) : env.Admits (S.push x) :=
  fun c ls d v n hget hkind hlen hc => (h c ls d v n hget hkind hlen hc).widen (S.le_push x)

lemma Env.Admits.pushAll {env : Env} {S : Scope} (h : env.Admits S) (xs : List Local) :
    env.Admits (S.pushAll xs) := by
  induction xs generalizing S with
  | nil => exact h
  | cons x xs ih => exact ih (h.push x.id)

namespace InductiveSpec

variable {env : Env} {spec : InductiveSpec} {fuel next : Nat}
variable {S : Scope} {rest : Term} {params : List Local} {c : OpenedCtor} {elim : Option Name}
  {opened : List OpenedCtor}

lemma openParams_in (hS : env.Admits S) {count : Nat} {target : Term} (ht : target.In S 0)
    (h : (spec.openParams env fuel count next target).Yields (params, rest)) : Local.AllIn S params := by
  induction count generalizing S next target params with
  | zero =>
    obtain ⟨rfl, _⟩ := h
    trivial
  | succ count ih =>
    obtain ⟨x, i, t, b, params', hwhnf, hrec, rfl⟩ := openParams_succ h
    have hpi := (Env.steps_of_whnf hwhnf).in_scope hS ht
    have hb : (b.instantiate (Local.new next x t).term).In (S.push (Local.new next x t).id) 0 :=
      (hpi.2.widen (S.le_push _)).instantiate (.inr rfl)
    exact ⟨hpi.1, ih (hS.push _) hb hrec⟩

lemma passParams_in (hS : env.Admits S) {Γ : Context} {c : Name × Term} (hparams : ∀ x ∈ params, S.free x.id)
    (ht : type.In S 0) (h : (passParams env spec fuel next Γ c params type).Yields rest) : rest.In S 0 := by
  induction params generalizing type with
  | nil => exact yields_pure.mp h ▸ ht
  | cons x params ih =>
    rw [forall_mem_cons] at hparams
    obtain ⟨y, i, t, b, hwhnf, _, hrec⟩ := passParams_cons h
    have hpi := (Env.steps_of_whnf hwhnf).in_scope hS ht
    exact ih hparams.2 (.instantiate (a := x.term) hpi.2 hparams.1) hrec

lemma openFields_in {c : Name} {Γ : Context} (ht : type.In S 0)
    (h : (openFields env spec sort selfApp c fuel next Γ type).Yields (fields, Γ', rest)) :
    Local.AllIn S (fields.map Prod.fst) ∧ rest.In (S.pushAll (fields.map Prod.fst)) 0 := by
  induction fuel generalizing S next Γ type fields with
  | zero => simp [openFields] at h
  | succ fuel ih =>
    rcases openFields_cases h with ⟨x, i, t, b, rfl⟩ | ⟨rfl, rfl⟩
    · obtain ⟨recursive, fields', _, _, hrec, rfl⟩ := openFields_pi h
      have hb : (b.instantiate (Local.new next x t).term).In (S.push (Local.new next x t).id) 0 :=
        (ht.2.widen (S.le_push _)).instantiate (.inr rfl)
      obtain ⟨hfields, hrest⟩ := ih hb hrec
      exact ⟨⟨ht.1, hfields⟩, hrest⟩
    · exact ⟨trivial, ht⟩

/-- The scope of terms without hypotheses. -/
def noFree : Scope := { free := fun _ => False }

/-- In a scope that restricts hypotheses only, a constant or a constructor may be applied to them. -/
private lemma apply_terms_in {xs ys : List Local} {m : Term} (hm : m.In (noFree.pushAll xs) 0)
    (hys : ∀ y ∈ ys, y ∈ xs) : (m.apply (ys.map Local.term)).In (noFree.pushAll xs) 0 := by
  refine in_apply.mpr ⟨hm, fun a ha => ?_⟩
  obtain ⟨y, hy, rfl⟩ := mem_map.mp ha
  exact in_pushAll_term (hys y hy)

/-! ## The parts of the recursor -/

/-- The motive. -/
def motive (spec : InductiveSpec) (next : Nat) (params : List Local) (elim : Option Name) : Local :=
  .new next ⟨"motive"⟩ (.pi ⟨"t"⟩ false (spec.selfApp params) (.sort ((elim.map Level.param).getD .zero)))

/-- The scrutinee. -/
def major (spec : InductiveSpec) (next : Nat) (params : List Local) : Local :=
  .new (next + 1) ⟨"t"⟩ (spec.selfApp params)

/-- The fields that are of the type itself. -/
def OpenedCtor.recursiveFields (c : OpenedCtor) : List Local :=
  ((c.fields.zip c.ctor.recursive).filter Prod.snd).map Prod.fst

/-- The induction hypotheses for a constructor. -/
def hypotheses (next : Nat) (motive : Local) (c : OpenedCtor) : List Local :=
  c.recursiveFields.zipIdx.map fun (field, i) =>
    .new (next + i) (hypothesisName field.name) (motive.term.app field.term)

/-- A constructor on the parameters and its fields. -/
def ctorApp (spec : InductiveSpec) (params : List Local) (index : Nat) (c : OpenedCtor) : Term :=
  (ctor spec.name index c.ctor.name spec.levels).apply ((params ++ c.fields).map Local.term)

/-- The minor premises. -/
def minors (spec : InductiveSpec) (next : Nat) (params : List Local) (motive : Local)
    (ctors : List OpenedCtor) : List Local :=
  ctors.zipIdx.map fun (c, i) => .new (next + 2 + i) ⟨c.ctor.name.lastComponent⟩
    (spec.minorType (next + 2 + ctors.length) params motive i c)

lemma minorType_eq (params : List Local) (motive : Local) (index : Nat) (c : OpenedCtor) :
    spec.minorType next params motive index c =
      (motive.term.app (spec.ctorApp params index c)).pis (c.fields ++ hypotheses next motive c) := rfl

lemma OpenedCtor.mem_fields_of_recursive {x : Local} (hx : x ∈ c.recursiveFields) : x ∈ c.fields := by
  obtain ⟨⟨y, r⟩, hy, rfl⟩ := mem_map.mp hx
  exact (of_mem_zip (mem_filter.mp hy).1).1

lemma minor_telescope_in {motive : Local} (hfields : Local.AllIn (noFree.pushAll params) c.fields) :
    Local.AllIn (noFree.pushAll (params ++ [motive])) (c.fields ++ hypotheses next motive c) := by
  have hle : (noFree.pushAll params).Le (noFree.pushAll (params ++ [motive])) := by
    rw [Scope.pushAll_append]
    exact Scope.le_pushAll _ _
  refine Local.allIn_append.mpr ⟨hfields.mono hle, .of_forall ?_⟩
  intro x hx
  obtain ⟨⟨field, i⟩, hfield, rfl⟩ := mem_map.mp hx
  have hmem := OpenedCtor.mem_fields_of_recursive (fst_mem_of_mem_zipIdx hfield)
  rw [← Scope.pushAll_append]
  exact ⟨in_pushAll_term (by simp), in_pushAll_term (by simp [hmem])⟩

lemma minor_body_in {motive : Local} {index : Nat} : (motive.term.app (spec.ctorApp params index c)).In
      ((noFree.pushAll (params ++ [motive])).pushAll (c.fields ++ hypotheses next motive c)) 0 := by
  rw [← Scope.pushAll_append]
  refine ⟨in_pushAll_term (by simp), apply_terms_in ?_ fun y hy => ?_⟩
  · exact (noFree.le_pushAll _).ctor _ _ _ trivial
  · rcases mem_append.mp hy with hy | hy <;> simp [hy]

lemma minorType_in {motive : Local} {index : Nat} (hfields : Local.AllIn (noFree.pushAll params) c.fields) :
    (spec.minorType next params motive index c).In (noFree.pushAll (params ++ [motive])) 0 :=
  Term.In.pis (minor_telescope_in hfields) minor_body_in

lemma recursor_telescope_in (hparams : Local.AllIn noFree params)
    (hfields : ∀ c ∈ opened, Local.AllIn (noFree.pushAll params) c.fields) :
    Local.AllIn noFree (params ++ [spec.motive next params elim] ++
      spec.minors next params (spec.motive next params elim) opened ++ [spec.major next params]) := by
  have hself (xs : List Local) (h : ∀ x ∈ params, x ∈ xs) :
      (spec.selfApp params).In (noFree.pushAll xs) 0 :=
    apply_terms_in ((noFree.le_pushAll _).const _ _ trivial) h
  refine Local.allIn_append.mpr ⟨Local.allIn_append.mpr ⟨Local.allIn_append.mpr
    ⟨hparams, .of_forall ?motive⟩, .of_forall ?minors⟩, .of_forall ?major⟩
  case motive =>
    intro x hx
    obtain rfl := mem_singleton.mp hx
    exact ⟨hself _ fun x hx => hx, (noFree.le_pushAll _).level _ trivial⟩
  case minors =>
    intro x hx
    obtain ⟨⟨c, i⟩, hc, rfl⟩ := mem_map.mp hx
    exact minorType_in (hfields c (fst_mem_of_mem_zipIdx hc))
  case major =>
    intro x hx
    obtain rfl := mem_singleton.mp hx
    exact hself _ fun x hx => by simp [hx]

lemma recursor_body_in : ((spec.motive next params elim).term.app (spec.major next params).term).In
      (noFree.pushAll (params ++ [spec.motive next params elim] ++
        spec.minors next params (spec.motive next params elim) opened ++ [spec.major next params])) 0 :=
  ⟨in_pushAll_term (by simp), in_pushAll_term (by simp)⟩

lemma recursorType_in (hparams : Local.AllIn noFree params)
    (hfields : ∀ c ∈ opened, Local.AllIn (noFree.pushAll params) c.fields) :
    (spec.recursorType next params elim opened).In noFree 0 :=
  Term.In.pis (recursor_telescope_in hparams hfields) recursor_body_in

end InductiveSpec

end ProofAssistant
