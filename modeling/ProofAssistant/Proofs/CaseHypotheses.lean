import ProofAssistant.Proofs.AlphaEquivalence
import ProofAssistant.Proofs.RecursionEquations

/-!
# The hypotheses of a case

The compiler of clauses and the tactics open the same hypotheses for a constructor: its fields, an induction hypothesis
for each recursive field, and copies of the hypotheses that depend on the one taken apart. `CaseHypotheses.Of` says what
they are, without reference to the functions that open them.
-/

namespace ProofAssistant

open FreshM List Scope Term Option Replacement Env

variable {m : Term} {S : Scope} {xs : List Local}
variable {r : List Local × List Name} {μ : Metas} {T : FamilyInstance} {type rest : Term} {S' : Scope}
  {names ps : List Name}

open InductiveSpec

/-- Neither hypotheses nor holes. -/
def Scope.ground : Scope :=
  { free := fun _ => False, hole := fun _ => False }

lemma Scope.ground_le_pushAll (xs : List Local) : ground.Le (noFree.pushAll xs) := by
  rw [pushAll_eq]
  exact { free := fun _ h => h.elim, hole := fun _ _ => trivial }

/-! ## The inductive type that is taken apart -/

/-- The inductive type is declared, and its parameters are in scope. -/
structure FamilyInstance.Known (env : Env) (S : Scope) (T : FamilyInstance) : Prop where
  family : env.inductive? T.family.name = some T.family
  params_length : T.params.length = T.family.numParams
  params : ∀ a ∈ T.params, a.In S 0

namespace Env

variable {env : Env} {S : Scope}
variable {fuel : Nat} {type : Term}

/-- A type of which the inductive type is known reduces to that type on its parameters. -/
lemma steps_of_familyOf? (h : env.familyOf? μ fuel type = some (some T)) :
    env.Steps (μ.instantiate type) ((Term.const T.family.name T.levels).apply T.params) ∧
      env.inductive? T.family.name = some T.family ∧ T.params.length = T.family.numParams := by
  obtain ⟨type', hwhnf, h⟩ := bind_eq_some_iff.mp h
  split at h
  · rename_i c levels hhead
    split at h
    · rename_i t ht
      have h := some.inj h
      split at h
      · rename_i hlen
        obtain rfl := some.inj h
        have hname : t.name = c := (name_of_inductive? ht).2
        refine ⟨?_, ?_, hlen⟩
        · rw [hname, ← hhead, apply_head_args]
          exact steps_of_whnf hwhnf
        · rwa [hname]
      · exact nomatch h
    · exact nomatch some.inj h
  · exact nomatch some.inj h

lemma known_of_familyOf? (hS : env.Admits S) (htype : (μ.instantiate type).In S 0)
    (h : env.familyOf? μ fuel type = some (some T)) : T.Known env S := by
  obtain ⟨hsteps, hfamily, hlen⟩ := steps_of_familyOf? h
  exact ⟨hfamily, hlen, (in_apply.mp (hsteps.in_scope hS htype)).2⟩

lemma in_ground_instantiate {k : Nat} (hm : m.In (env.scope ps fun _ => False) k) (qs : List Name)
    (ls : List Level) : (m.instantiateLevelParams qs ls).In .ground k := by
  rw [instantiateLevelParams_eq_mapLevels]
  exact hm.mapLevels_free_hole _

/-- A scope that restricts hypotheses and holes only contains the values of all definitions. -/
lemma Scoped.admits_of_ground_le (henv : env.Scoped) (hS : Scope.ground.Le S) : env.Admits S :=
  admits_of_forall fun d hd m hm ls =>
    (in_ground_instantiate (henv.terms d hd m hm) d.levelParams ls).widen hS

lemma applyType_in (hS : env.Admits S) {as : List Term} (has : ∀ a ∈ as, a.In S 0) {r : Term} (htype : type.In S 0)
    (h : env.applyType fuel as type = some r) : r.In S 0 := by
  induction as generalizing type with
  | nil => exact some.inj h ▸ htype
  | cons a as ih =>
    obtain ⟨ha, has⟩ := forall_mem_cons.mp has
    obtain ⟨type', hwhnf, h⟩ := bind_eq_some_iff.mp h
    have htype' := (steps_of_whnf hwhnf).in_scope hS htype
    split at h
    · exact ih has (htype'.2.instantiate ha) h
    · exact ih has htype h

end Env

namespace FamilyInstance.Known

variable {env : Env} {S : Scope} {T : FamilyInstance}

lemma fieldsType_in (hT : T.Known env S) (hS : ground.Le S) (henv : env.Scoped) {k : Constructor}
    (hk : k ∈ T.family.ctors) {fuel : Nat} (h : env.fieldsType fuel T k = some type) : type.In S 0 := by
  have hground := in_ground_instantiate (henv.ctors _ _ hT.family k hk) T.family.levelParams T.levels
  exact applyType_in (henv.admits_of_ground_le hS) hT.params (hground.widen hS) h

lemma construct_in (hT : T.Known env S) (hS : ground.Le S) (hS' : S.Le S')
    {fields : List Local} (hfields : ∀ x ∈ fields, S'.free x.id) (i : Nat) (k : Constructor) :
    (T.construct i k (fields.map Local.term)).In S' 0 := by
  refine in_apply.mpr ⟨hS'.ctor _ _ _ (hS.ctor _ _ _ trivial), fun a ha => ?_⟩
  rcases mem_append.mp ha with ha | ha
  · exact (hT.params a ha).widen hS'
  · obtain ⟨x, hx, rfl⟩ := mem_map.mp ha
    exact hfields x hx

end FamilyInstance.Known

/-! ## What is opened -/

lemma Term.subst_congr {k : Nat} (hm : m.In S k) {values values' : List (Id × Term)}
    (hvalues : ∀ p ∈ values, p.2.In {} 0) (hvalues' : ∀ p ∈ values', p.2.In {} 0)
    (h : ∀ x, S.free x → values.lookup x = values'.lookup x) : m.subst values = m.subst values' := by
  rw [subst_eq_replace hvalues, subst_eq_replace hvalues']
  refine replace_congr hm (fun _ _ => rfl) fun x hx => ?_
  show (values.lookup x).getD _ = (values'.lookup x).getD _
  rw [h x hx]

/-- The term is a product over variables of the types of the hypotheses, and `rest` is left when they are put for the
variables. -/
inductive Term.OpenedBy : (m : Term) → List Local → (rest : Term) → Prop
  | nil (m : Term) : OpenedBy m [] m
  | cons {x : Local} {xs : List Local} {y : Name} {i : Bool} {b rest : Term} :
    OpenedBy (b.instantiate x.term) xs rest → OpenedBy (.pi y i x.type b) (x :: xs) rest

/-- A product is the product over the new hypotheses that it is opened by, whatever these are called. -/
lemma Term.OpenedBy.alphaEq_pis (h : m.OpenedBy xs rest) (hm : m.In S 0)
    (hnodup : (xs.map Local.id).Nodup) (hfresh : ∀ x ∈ xs, ¬ S.free x.id) :
    m.alphaEq (rest.pis xs) ∧ (rest.pis xs).In S 0 := by
  induction h generalizing S with
  | nil m => exact ⟨by simp, by rwa [pis_nil]⟩
  | @cons x xs y i b rest _ ih =>
    obtain ⟨hx, hfresh⟩ := forall_mem_cons.mp hfresh
    obtain ⟨hxx, hnodup⟩ := nodup_cons.mp hnodup
    have hfresh' : ∀ z ∈ xs, ¬ (S.push x.id).free z.id := by
      rintro z hz (hfree | heq)
      · exact hfresh z hz hfree
      · exact hxx (heq ▸ mem_map_of_mem hz)
    obtain ⟨halpha, hrest⟩ := ih (hm.2.opened x) hnodup hfresh'
    -- both bodies are what is left when the new hypothesis is abstracted
    have habs := (alphaEq_iff.mp halpha).replace (fun i => .refl ((abstracted x.id).var i))
      fun z => .refl ((abstracted x.id).free z)
    rw [Local.term, replace_abstracted hm.2 hx, ← close_eq_abstracted hrest] at habs
    rw [alphaEq_iff, pis_cons]
    exact ⟨.pi (.refl _) habs, hm.1, hrest.close_pushed⟩

namespace Elaborator

variable {S : Scope} {s s' : Supply}

lemma openedBy_of_openFields {name : Name → Name} {count : Nat} (hcount : type.numBinders = count)
    (h : FreshM.Ends (openFields name count names type) s r s') : ∃ rest, type.OpenedBy r.1 rest := by
  induction count generalizing names type s r with
  | zero =>
    obtain ⟨rfl, rfl⟩ := h.pure
    exact ⟨type, .nil type⟩
  | succ count ih =>
    cases type with
    | pi x i t b =>
      obtain ⟨y, s₁, hy, h⟩ := h.bind
      obtain ⟨hnew, rfl⟩ := ends_assume.mp hy
      obtain ⟨r', s₂, hr, h⟩ := h.bind
      obtain ⟨rfl, rfl⟩ := h.pure
      have hbinders := numBinders_replace_of_places b (ofPlaces_single y.id)
      rw [← instantiate_eq_replace] at hbinders
      obtain ⟨rest, hrest⟩ := ih (hbinders.1.trans (Nat.succ.inj hcount)) hr
      obtain rfl : y.type = t := hnew ▸ Eq.refl _
      exact ⟨rest, .cons hrest⟩
    | _ => simp [numBinders] at hcount

lemma types_of_openHypotheses {motive : Term → Term} {single : Bool}
    (h : FreshM.Ends (openHypotheses motive single names xs) s r s') :
    r.1.map Local.type = xs.map fun x => motive x.term := by
  induction xs generalizing names s r with
  | nil =>
    obtain ⟨rfl, rfl⟩ := h.pure
    exact Eq.refl _
  | cons x xs ih =>
    obtain ⟨y, s₁, hy, h⟩ := h.bind
    obtain ⟨rfl, rfl⟩ := ends_assume.mp hy
    obtain ⟨r', s₂, hr, h⟩ := h.bind
    obtain ⟨rfl, rfl⟩ := h.pure
    exact congrArg (List.cons _) (ih hr)

/-- Names are kept. Types are the old ones with the values for all hypotheses that are replaced, of which later ones do
not occur. -/
lemma types_of_replaceLocals {values : List (Id × Term)} (hxs : Local.AllIn S xs) (hnodup : (xs.map Local.id).Nodup)
    (hfresh : ∀ x ∈ xs, ¬ S.free x.id) (hvalues : ∀ p ∈ values, p.2.In {} 0) {r : List Local × List (Id × Term)}
    (h : FreshM.Ends (replaceLocals values xs) s r s') :
    r.1.map Local.name = xs.map Local.name ∧ r.1.map Local.type = xs.map (fun x => x.type.subst r.2) ∧
      (∀ p ∈ r.2, p.2.In {} 0) ∧ ∀ z, S.free z → r.2.lookup z = values.lookup z := by
  induction xs generalizing S values s r with
  | nil =>
    obtain ⟨rfl, rfl⟩ := h.pure
    exact ⟨Eq.refl _, Eq.refl _, hvalues, fun _ _ => Eq.refl _⟩
  | cons x xs ih =>
    obtain ⟨y, s₁, hy, h⟩ := h.bind
    obtain ⟨hnew, rfl⟩ := ends_assume.mp hy
    obtain ⟨r', s₂, hr, h⟩ := h.bind
    obtain ⟨rfl, rfl⟩ := h.pure
    obtain ⟨hx, hfresh⟩ := forall_mem_cons.mp hfresh
    obtain ⟨hxx, hnodup⟩ := nodup_cons.mp hnodup
    have hfresh' : ∀ z ∈ xs, ¬ (S.push x.id).free z.id := by
      rintro z hz (hfree | heq)
      · exact hfresh z hz hfree
      · exact hxx (heq ▸ mem_map_of_mem hz)
    have hvalues' : ∀ p ∈ values ++ [(x.id, y.term)], p.2.In {} 0 := by
      intro p hp
      rcases mem_append.mp hp with hp | hp
      · exact hvalues p hp
      · obtain rfl := mem_singleton.mp hp
        trivial
    obtain ⟨hnames, htypes, hclosed, hlookup⟩ := ih hxs.2 hnodup hfresh' hvalues' hr
    have hlookup' : ∀ z, S.free z → r'.2.lookup z = values.lookup z := by
      intro z hz
      have hzx : z ≠ x.id := fun heq => hx (heq ▸ hz)
      rw [hlookup z (.inl hz), lookup_append, lookup_cons, beq_eq_false_iff_ne.mpr hzx]
      simp
    refine ⟨?_, ?_, hclosed, hlookup'⟩
    · rw [map_cons, hnames, ← hnew]
      exact Eq.refl _
    · rw [map_cons, map_cons, htypes, subst_congr hxs.1 hclosed hvalues hlookup', ← hnew]
      exact Eq.refl _

end Elaborator

/-! ## The hypotheses of a constructor -/

/-- The new hypotheses in the case of a constructor. -/
structure CaseHypotheses where
  fields : List Local
  /-- The induction hypotheses. -/
  ihs : List Local
  /-- For the hypotheses that depend on the one taken apart. -/
  copies : List Local

namespace CaseHypotheses

def telescope (h : CaseHypotheses) : List Local :=
  h.fields ++ h.ihs ++ h.copies

/-- What is put for the hypothesis `x` and for those that depend on it. -/
def values (h : CaseHypotheses) (T : FamilyInstance) (i : Nat) (k : Constructor) (x : Local) (deps : List Local) :
    List (Id × Term) :=
  (x.id, T.construct i k (h.fields.map Local.term)) :: (deps.map Local.id).zip (h.copies.map Local.term)

/-- They are those of the `i`-th constructor where `x` is taken apart to show `statement`, over the hypotheses `deps`.
-/
structure Of (h : CaseHypotheses) (env : Env) (S : Scope) (T : FamilyInstance) (i : Nat) (k : Constructor)
    (x : Local) (deps : List Local) (statement : Term) (n n' : Nat) : Prop where
  product : ∃ type rest : Term,
    env.Specializes T.params (k.type.instantiateLevelParams T.family.levelParams T.levels) type ∧
      type.In S 0 ∧ type.OpenedBy h.fields rest
  fields_length : h.fields.length = k.numFields
  ihs_types : h.ihs.map Local.type = (k.recursiveFields h.fields).map fun y => statement.subst [(x.id, y.term)]
  copies_names : h.copies.map Local.name = deps.map Local.name
  copies_types : h.copies.map Local.type = deps.map fun y => y.type.subst (h.values T i k x deps)
  fields_in : Local.AllIn S h.fields
  ihs_in : Local.AllIn (S.pushAll h.fields) h.ihs
  copies_in : Local.AllIn (S.pushAll h.fields) h.copies
  between : Local.Between n n' h.telescope

end CaseHypotheses

/-- Two telescopes that do not depend on each other. -/
lemma Local.AllIn.append_right {ys : List Local} (hxs : AllIn S xs) (hys : AllIn S ys) : AllIn S (xs ++ ys) :=
  allIn_append.mpr ⟨hxs, hys.mono (le_pushAll _ _)⟩

namespace Elaborator

section Case

variable {env : Env} {S : Scope} {T : FamilyInstance} {i : Nat} {k : Constructor} {x : Local} {deps : List Local}
  {statement type : Term} {fuel : Nat} {s s₁ s₂ s₃ : Supply} {name : Name → Name} {single : Bool}
  {names names' left left' : List Name} {fields ihs copies : List Local} {values : List (Id × Term)}

/-- A value for a hypothesis leads out of its scope. -/
lemma free_of_lookup (hS : S.Le S') (hvalues : values.lookup x.id ≠ none) {y : Id}
    (hy : (S.push x.id).free y) (hnone : values.lookup y = none) : S'.free y := by
  rcases hy with hy | rfl
  · exact hS.free y hy
  · exact absurd hnone hvalues

lemma case_telescope (henv : Env.Reachable env) (hS : ground.Le S) (hT : T.Known env S)
    (hk : k ∈ T.family.ctors) (hdeps : Local.AllIn (S.push x.id) deps) (hstatement : statement.In (S.push x.id) 0)
    (htype : env.fieldsType fuel T k = some type)
    (hfields : FreshM.Ends (openFields name type.numBinders names type) s (fields, left) s₁)
    (hihs : FreshM.Ends (openHypotheses (fun m => statement.subst [(x.id, m)]) single names'
      (k.recursiveFields fields)) s₁ (ihs, left') s₂)
    (hcopies : FreshM.Ends (replaceLocals [(x.id, T.construct i k (fields.map Local.term))] deps) s₂
      (copies, values) s₃) :
    fields.length = k.numFields ∧ ihs.length = (k.recursiveFields fields).length ∧ copies.length = deps.length ∧
      (Local.AllIn S fields ∧ Local.AllIn (S.pushAll fields) ihs ∧ Local.AllIn (S.pushAll fields) copies) ∧
      Local.Between s.next s₃.next (fields ++ ihs ++ copies) ∧
      values = (CaseHypotheses.mk fields ihs copies).values T i k x deps := by
  have hsingle (m : Term) : [(x.id, m)].lookup x.id ≠ none := by simp
  have hforget {S' : Scope} (h : S.Le S') : Scope.Le { S.push x.id with free := fun _ => False } S' :=
    ⟨fun _ hy => hy.elim, h.level, h.const, h.ctor, h.hole⟩
  obtain ⟨hfields_length, hfields_between, hfields_in⟩ :=
    openFields_between (hT.fieldsType_in hS (scoped_of_reachable henv) hk htype) (Eq.refl _) hfields
  rw [(specializes_of_fieldsType henv hT.family hT.params_length hk htype).2] at hfields_length
  have hihs_type : ∀ y ∈ k.recursiveFields fields, (statement.subst [(x.id, y.term)]).In (S.pushAll fields) 0 := by
    intro y hy
    refine hstatement.subst (hforget (le_pushAll _ _)) ?_ fun z =>
      free_of_lookup (le_pushAll _ _) (hsingle y.term)
    intro p hp
    obtain rfl := mem_singleton.mp hp
    exact in_pushAll_term (mem_of_mem_recursiveFields hy)
  obtain ⟨hihs_length, hihs_between, hihs_in⟩ := openHypotheses_between hihs_type hihs
  have hle : S.Le (S.pushAll fields) := le_pushAll _ _
  have hconstructed : (T.construct i k (fields.map Local.term)).In (S.pushAll fields) 0 :=
    hT.construct_in hS hle (fun y hy => in_pushAll_term hy) i k
  obtain ⟨hcopies_length, hcopies_between, hcopies_in, hvalues⟩ := replaceLocals_between (hforget hle) hdeps
    (by simpa using hconstructed) (fun z => free_of_lookup hle (hsingle _)) hcopies
  exact ⟨hfields_length, hihs_length, hcopies_length, ⟨hfields_in, hihs_in, hcopies_in⟩,
    (hfields_between.append hihs_between).append hcopies_between, hvalues⟩

/-- The hypotheses that are opened for a constructor are those of its case. -/
lemma caseHypotheses_of_ends (henv : Env.Reachable env) (hS : ground.Le S) (hT : T.Known env S)
    (hk : k ∈ T.family.ctors) (hdeps : Local.AllIn (S.push x.id) deps) (hnodup : (deps.map Local.id).Nodup)
    (hfresh : ∀ y ∈ deps, ¬ (S.push x.id).free y.id) (hstatement : statement.In (S.push x.id) 0)
    (htype : env.fieldsType fuel T k = some type)
    (hfields : FreshM.Ends (openFields name type.numBinders names type) s (fields, left) s₁)
    (hihs : FreshM.Ends (openHypotheses (fun m => statement.subst [(x.id, m)]) single names'
      (k.recursiveFields fields)) s₁ (ihs, left') s₂)
    (hcopies : FreshM.Ends (replaceLocals [(x.id, T.construct i k (fields.map Local.term))] deps) s₂
      (copies, values) s₃) : (CaseHypotheses.mk fields ihs copies).Of env S T i k x deps statement s.next s₃.next ∧
      values = (CaseHypotheses.mk fields ihs copies).values T i k x deps := by
  obtain ⟨hlen, -, -, ⟨hfields_in, hihs_in, hcopies_in⟩, hbetween, hvalues⟩ :=
    case_telescope henv hS hT hk hdeps hstatement htype hfields hihs hcopies
  have htypeIn := hT.fieldsType_in hS (scoped_of_reachable henv) hk htype
  obtain ⟨rest, hrest⟩ := openedBy_of_openFields (Eq.refl _) hfields
  have hspecial := (specializes_of_fieldsType henv hT.family hT.params_length hk htype).1
  have hclosed : ∀ p ∈ [(x.id, T.construct i k (fields.map Local.term))], p.2.In {} 0 := by
    intro p hp
    obtain rfl := mem_singleton.mp hp
    refine hT.construct_in hS ?_ (fun _ _ => trivial) i k
    exact le_of_free fun _ _ => trivial
  obtain ⟨hnames, htypes, -, -⟩ := types_of_replaceLocals hdeps hnodup hfresh hclosed hcopies
  refine ⟨⟨⟨type, rest, hspecial, htypeIn, hrest⟩, hlen, types_of_openHypotheses hihs, hnames, ?_, hfields_in, hihs_in,
    hcopies_in, hbetween⟩, hvalues⟩
  rw [← hvalues]
  exact htypes

end Case

end Elaborator

end ProofAssistant
