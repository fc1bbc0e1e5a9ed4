import ProofAssistant.Proofs.CaseHypotheses

/-!
# Cases of a definition by clauses

A definition by clauses is compiled to a recursor, with a case and an equation for each constructor. The equation says
that the function on the arguments that a clause matches is the right-hand side of that clause, elaborated where a
hypothesis stands for the function (`Compiler.ClauseEquation`). `Compiler.Job.Case` is what a case is made of.
-/

namespace ProofAssistant

open List FreshM Local Scope Elaborator Context Nat

variable {ys xs : List Local} {α : Type}
variable {β : Type} {r : Term × DefiningEquation} {ps : List Pattern} {bs : List β} {k : Constructor}

open InductiveSpec

/-! ## Names that patterns give -/

namespace Local

variable {xs : List Local}

lemma namedAll_cons (x : Local) (xs : List Local) (p : Pattern) (ps : List Pattern) :
    namedAll (x :: xs) (p :: ps) = x.named p :: namedAll xs ps :=
  rfl

lemma ids_namedAll (h : xs.length ≤ ps.length) : (namedAll xs ps).map Local.id = xs.map Local.id := by
  induction xs generalizing ps with
  | nil => cases ps <;> rfl
  | cons x xs ih =>
    cases ps with
    | nil => simp at h
    | cons p ps => rw [namedAll_cons, map_cons, ih (by simpa using h)]; rfl

lemma terms_eq_of_ids (h : xs.map Local.id = ys.map Local.id) : xs.map Local.term = ys.map Local.term := by
  have hfree := congrArg (map Term.free) h
  rwa [map_map, map_map] at hfree

lemma AllIn.namedAll {S : Scope} (h : AllIn S xs) (ps : List Pattern) : AllIn S (namedAll xs ps) := by
  induction xs generalizing S ps with
  | nil => cases ps <;> trivial
  | cons x xs ih =>
    cases ps with
    | nil => trivial
    | cons p ps => exact ⟨h.1, ih h.2 ps⟩

end Local

@[simp] lemma Context.ids_pushAll (Γ : Context) (xs : List Local) :
    (Γ.pushAll xs).ids = Γ.ids ++ xs.map Local.id := by
  induction xs generalizing Γ with
  | nil => simp [pushAll]
  | cons x xs ih =>
    show ((Γ.push x).pushAll xs).ids = _
    rw [ih, ids_push, append_assoc]
    rfl

lemma Scope.pushAll_of_ids (S : Scope) (h : xs.map Local.id = ys.map Local.id) : S.pushAll xs = S.pushAll ys := by
  rw [pushAll_eq, pushAll_eq, h]

lemma Scope.pushAll_le_of_free {P Q : Id → Prop} (h : ∀ x, P x → Q x) :
    Scope.Le { noFree.pushAll xs with free := P } { noFree.pushAll ys with free := Q } := by
  rw [pushAll_eq, pushAll_eq]
  exact { free := h }

lemma lookup_zip_ne_none [BEq α] [LawfulBEq α] {as : List α} (hlen : as.length ≤ bs.length)
    {a : α} (ha : a ∈ as) : (as.zip bs).lookup a ≠ none := by
  intro h
  rw [← map_fst_zip hlen] at ha
  obtain ⟨p, hp, rfl⟩ := mem_map.mp ha
  have := lookup_eq_none_iff.mp h p hp
  simp at this

namespace FreshM

lemma supply_of_mapM {f : α → FreshM β} (hf : ∀ a s b s', Ends (f a) s b s' → s = s') {as : List α}
    {s s' : Supply} (h : Ends (as.mapM f) s bs s') : s = s' := by
  induction as generalizing s bs with
  | nil => exact (h.pure).2
  | cons a as ih =>
    rw [mapM_cons] at h
    simp only [ends_bind] at h
    obtain ⟨b, s₁, hb, bs, s₂, hbs, -, rfl⟩ := h
    rw [hf a s b s₁ hb, ih hbs]

lemma supply_of_forIn {f : α → PUnit → FreshM (ForInStep PUnit)} (hf : ∀ a u s r s', Ends (f a u) s r s' → s = s')
    {as : List α} {u v : PUnit} {s s' : Supply} (h : Ends (forIn as u f) s v s') : s = s' := by
  induction as generalizing s u with
  | nil => exact (h.pure).2
  | cons a as ih =>
    rw [forIn_cons] at h
    obtain ⟨r, s₁, hr, h⟩ := h.bind
    rw [hf a u s r s₁ hr]
    cases r with
    | done w => exact (h.pure).2
    | yield w => exact ih h

end FreshM

namespace Compiler

/-! ## What an equation states -/

/-- The equation is that of a clause of the definition, for all of `binders`, where the hypothesis `self` stands
for the function. -/
inductive ClauseEquation (E : Elaborator) (d : ClauseDef) (self : Local) : (binders : List Local) → Equation → Prop
  /-- The clause matches all arguments. -/
  | plain {clause : Clause} {xs : List Local} {level : Level} {type : Term} {s s' : Supply} {r : Elaborated} :
    clause ∈ d.clauses →
    FreshM.Ends (E.elaborate (pushAll ⟨[self]⟩ xs) clause.rhs (some type)) s r s' →
    ClauseEquation E d self xs
      ⟨level, type, d.constant.apply (xs.map Local.term), r.term.subst [(self.id, d.constant)]⟩
  /-- The clause matches a constructor on variables. -/
  | matched {clause : Clause} {before fields after : List Local} {T : FamilyInstance} {i : Nat} {k : Constructor}
    {level : Level} {type : Term} {s s' : Supply} {r : Elaborated} :
    clause ∈ d.clauses → T.family.ctors[i]? = some k →
    FreshM.Ends (E.elaborate (pushAll ⟨[self]⟩ (before ++ fields ++ after)) clause.rhs (some type)) s r s' →
    ClauseEquation E d self (before ++ fields ++ after)
      ⟨level, type,
        d.constant.apply (before.map Local.term ++ [T.construct i k (fields.map Local.term)] ++ after.map Local.term),
        r.term.subst [(self.id, d.constant)]⟩
  /-- The clause matches every constructor: what it names is given by the constructor and the arguments after. -/
  | catchAll {clause : Clause} {before xs fields after : List Local} {T : FamilyInstance} {i : Nat}
    {k : Constructor} {level : Level} {type type' : Term} {s s' : Supply} {r : Elaborated} :
    clause ∈ d.clauses → T.family.ctors[i]? = some k → xs.length = after.length + 1 →
    FreshM.Ends (E.elaborate (pushAll ⟨[self]⟩ (before ++ xs)) clause.rhs (some type)) s r s' →
    ClauseEquation E d self (before ++ fields ++ after)
      ⟨level, type',
        d.constant.apply (before.map Local.term ++ [T.construct i k (fields.map Local.term)] ++ after.map Local.term),
        (r.term.subst ((xs.map Local.id).zip (T.construct i k (fields.map Local.term) :: after.map Local.term))).subst
          [(self.id, d.constant)]⟩

/-! ## The jobs of the compiler -/

namespace Job

variable {J : Job} {n : Nat} {s s' : Supply}
variable {x : Split} {T : FamilyInstance} {i : Nat}

/-- What is known of a definition when its arguments have been opened. The numbers below `n` are used. -/
structure Opened (J : Job) (n : Nat) : Prop where
  env : Env.Reachable J.elaborator.env
  telescope : Local.AllIn noFree J.args
  result : J.result.In (noFree.pushAll J.args) 0
  between : Local.Between 0 n ([J.self] ++ J.args)
  arity : ∀ c ∈ J.definition.clauses, c.patterns.length = J.args.length

namespace Opened

lemma env_scoped (hJ : J.Opened n) : J.elaborator.env.Scoped :=
  Env.scoped_of_reachable hJ.env

lemma admits (hJ : J.Opened n) (xs : List Local) : J.elaborator.env.Admits (noFree.pushAll xs) :=
  hJ.env_scoped.admits_noFree.pushAll xs

lemma self_not_mem (hJ : J.Opened n) : J.self.id ∉ J.args.map Local.id := by
  have hnodup := hJ.between.nodup
  rw [map_append, nodup_append] at hnodup
  intro hmem
  exact hnodup.2.2 _ (by simp) _ hmem rfl

end Opened

/-- A right-hand side mentions the function and the variables of its clause. -/
lemma elaborateRhs_ends {c : Clause} {expected m : Term}
    (h : FreshM.Ends (J.elaborateRhs c (J.clauseContext xs) expected) s m s') :
    s.next ≤ s'.next ∧ m.In ((noFree.pushAll xs).push J.self.id) 0 ∧
      ∃ r, FreshM.Ends (J.elaborator.elaborate (pushAll ⟨[J.self]⟩ xs) c.rhs (some expected)) s r s' ∧
        r.term = m := by
  obtain ⟨r, s₁, hr, h⟩ := h.bind
  obtain ⟨rfl, rfl⟩ := h.pure
  refine ⟨next_le_of_elaborate hr, ?_, r, hr, rfl⟩
  obtain ⟨type, hfinished, _⟩ := Request.finished_of_run (q := .term (J.clauseContext xs) c.rhs (some expected)) hr
  refine hfinished.term_in.widen ?_
  rw [pushAll_eq]
  refine { free := fun x hx => ?_ }
  have hx : x ∈ (pushAll ⟨[J.self]⟩ xs).ids := hx
  rw [ids_pushAll] at hx
  rcases mem_append.mp hx with hx | hx
  · exact .inr (mem_singleton.mp hx)
  · exact .inl (.inr hx)

/-! ### One constructor -/

/-- What the case of a constructor is made of. -/
structure Case where
  /-- The arguments before, under the names of the clause. -/
  before : List Local
  fields : List Local
  /-- The induction hypotheses. -/
  ihs : List Local
  /-- The arguments after, whose types may depend on the constructor. -/
  after : List Local
  rhs : Term
  /-- The right-hand side without recursive calls. -/
  minor : Term
  equation : Equation

namespace Case

/-- The new hypotheses. -/
def telescope (c : Case) : List Local :=
  c.fields ++ c.ihs ++ c.after

/-- The hypotheses that the equation is about. -/
def binders (c : Case) : List Local :=
  c.before ++ c.fields ++ c.after

/-- The recursive calls that are allowed in a case of the constructor `k`. -/
def calls (c : Case) (J : Job) (k : Constructor) : Calls :=
  ⟨J.self.id, c.before.length, c.before.map Local.term,
    ((k.recursiveFields c.fields).map Local.id).zip (c.ihs.map Local.term)⟩

/-- The case is that of the `i`-th constructor, and its hypotheses have numbers from `n` on. -/
structure Of (c : Case) (J : Job) (x : Split) (T : FamilyInstance) (n i : Nat) (k : Constructor) : Prop where
  ctor : T.family.ctors[i]? = some k
  before_ids : c.before.map Local.id = x.before.map Local.id
  fields_length : c.fields.length = k.numFields
  ihs_length : c.ihs.length = (k.recursiveFields c.fields).length
  telescope_in : Local.AllIn (noFree.pushAll x.before) c.telescope
  between : ∃ n', Local.Between n n' c.telescope
  rhs_in : c.rhs.In ((noFree.pushAll c.binders).push J.self.id) 0
  replaced : (c.calls J k).Replaced c.rhs c.minor
  states : ClauseEquation J.elaborator J.definition J.self c.binders c.equation
  lhs : c.equation.lhs = J.definition.constant.apply
    (c.before.map Local.term ++ [T.construct i k (c.fields.map Local.term)] ++ c.after.map Local.term)
  rhs : c.equation.rhs = c.rhs.subst [(J.self.id, J.definition.constant)]

end Case

lemma Opened.statement_in (hJ : J.Opened n) (hargs : J.args = x.before ++ [x.major] ++ x.after) :
    (x.statement J).In (noFree.pushAll (x.before ++ [x.major])) 0 := by
  have htelescope := hJ.telescope
  have hresult := hJ.result
  rw [hargs, allIn_append] at htelescope
  rw [hargs, pushAll_append] at hresult
  exact .pis htelescope.2 hresult

lemma Opened.case_telescope (hJ : J.Opened n) (hargs : J.args = x.before ++ [x.major] ++ x.after)
    (hT : T.Known J.elaborator.env (noFree.pushAll x.before)) (hk : k ∈ T.family.ctors)
    {type : Term} (htype : J.elaborator.env.fieldsType J.elaborator.fuel T k = some type) {s₁ s₂ s₃ : Supply}
    {name : Name → Name} {names names' : List Name} {fields ihs after : List Local} {left left' : List Name}
    (hfields : FreshM.Ends (openFields name type.numBinders names type) s (fields, left) s₁)
    (hihs : FreshM.Ends (openHypotheses (fun m => (x.statement J).subst [(x.major.id, m)]) false names'
      (k.recursiveFields fields)) s₁ (ihs, left') s₂) (hps : x.after.length ≤ ps.length) {values : List (Id × Term)}
    (hafter : FreshM.Ends (replaceLocals [(x.major.id, T.construct i k (fields.map Local.term))]
      (Local.namedAll x.after ps)) s₂ (after, values) s₃) :
    fields.length = k.numFields ∧ ihs.length = (k.recursiveFields fields).length ∧
      after.length = x.after.length ∧ Local.AllIn (noFree.pushAll x.before) (fields ++ ihs ++ after) ∧
      Local.Between s.next s₃.next (fields ++ ihs ++ after) ∧
      values = (x.major.id, T.construct i k (fields.map Local.term)) ::
        (x.after.map Local.id).zip (after.map Local.term) := by
  have htelescope := hJ.telescope
  rw [hargs, Local.allIn_append] at htelescope
  have hpush : (noFree.pushAll x.before).push x.major.id = noFree.pushAll (x.before ++ [x.major]) :=
    (Scope.pushAll_append noFree x.before [x.major]).symm
  obtain ⟨hfields_length, hihs_length, hafter_length, ⟨hfields_in, hihs_in, hafter_in⟩, hbetween, hvalues⟩ :=
    Elaborator.case_telescope hJ.env (Scope.ground_le_pushAll x.before) hT hk (hpush ▸ htelescope.2.namedAll ps)
      (hpush ▸ hJ.statement_in hargs) htype hfields hihs hafter
  rw [CaseHypotheses.values, Local.ids_namedAll hps] at hvalues
  refine ⟨hfields_length, hihs_length, ?_, ?_, hbetween, hvalues⟩
  · rw [hafter_length, ← length_map Local.id, Local.ids_namedAll hps, length_map]
  · rw [append_assoc]
    exact Local.allIn_append.mpr ⟨hfields_in, hihs_in.append_right hafter_in⟩

/-- The right-hand side of a clause that matches every constructor, at one of them. -/
lemma catchAll_in {before fields after : List Local} (hT : T.Known J.elaborator.env (noFree.pushAll before))
    (hlen : xs.length = after.length + 1) (i : Nat) (k : Constructor) {m : Term}
    (hm : m.In ((noFree.pushAll (before ++ xs)).push J.self.id) 0) :
    (m.subst ((xs.map Local.id).zip (T.construct i k (fields.map Local.term) :: after.map Local.term))).In
      ((noFree.pushAll (before ++ fields ++ after)).push J.self.id) 0 := by
  have hle : (noFree.pushAll before).Le ((noFree.pushAll (before ++ fields ++ after)).push J.self.id) := by
    have h := (noFree.pushAll before).le_pushAll (fields ++ after)
    rw [← pushAll_append, ← append_assoc] at h
    exact ⟨fun y hy => .inl (h.free y hy), h.level, h.const, h.ctor, h.hole⟩
  have hmem {y : Id} (hy : y ∈ (before ++ fields ++ after).map Local.id) :
      ((noFree.pushAll (before ++ fields ++ after)).push J.self.id).free y :=
    .inl ((pushAll_free _ _ _).mpr (.inr hy))
  refine hm.subst (pushAll_le_of_free fun _ hx => hx.elim) (fun p hp => ?_) fun y hy hnone => ?_
  · rcases mem_cons.mp (of_mem_zip hp).2 with hp | hp
    · rw [hp]
      refine hT.construct_in (ground_le_pushAll before) hle (fun y hy => hmem ?_) i k
      simp only [map_append, mem_append]
      exact .inl (.inr (mem_map_of_mem hy))
    · obtain ⟨y, hy, hp⟩ := mem_map.mp hp
      rw [← hp]
      refine hmem ?_
      rw [map_append]
      exact mem_append_right _ (mem_map_of_mem hy)
  · rcases hy with hy | hy
    · rcases (pushAll_free _ _ _).mp hy with hy | hy
      · exact hy.elim
      · rw [map_append] at hy
        rcases mem_append.mp hy with hy | hy
        · refine hmem ?_
          simp only [map_append, mem_append]
          exact .inl (.inl hy)
        · exact absurd hnone (lookup_zip_ne_none (by simp [hlen]) hy)
    · exact .inr hy

/-- A call that has no induction hypothesis is rejected, so a case that is compiled had its calls replaced. -/
lemma replaced_of_ends {q : Except Term Term} {Γ : Context} {f : Term → Term × DefiningEquation}
    (h : FreshM.Ends (match q with
      | .error call => rejectCall J.definition i call Γ
      | .ok minor => pure (f minor)) s r s') : ∃ minor, q = .ok minor ∧ f minor = r ∧ s = s' := by
  cases q with
  | error call => exact absurd h not_ends_throw
  | ok minor =>
    obtain ⟨hr, hs⟩ := h.pure
    exact ⟨minor, rfl, hr, hs⟩

lemma compileCase_ends (hJ : J.Opened n) (hargs : J.args = x.before ++ [x.major] ++ x.after)
    (hT : T.Known J.elaborator.env (noFree.pushAll x.before)) (hk : T.family.ctors[i]? = some k)
    {clause : Clause} (hclause : clause ∈ J.definition.clauses) (hn : n ≤ s.next) {j : Nat}
    (h : FreshM.Ends (J.compileCase x T i k j clause) s r s') :
    s.next ≤ s'.next ∧ ∃ c : Case, c.Of J x T n i k ∧ r.1 = c.minor.abs c.telescope ∧
      r.2.type = c.equation.term.pis c.binders ∧ r.2.proof = c.equation.refl.abs c.binders := by
  have harity := hJ.arity clause hclause
  rw [hargs] at harity
  simp only [length_append, length_singleton] at harity
  have hbefore : (namedAll x.before clause.patterns).map Local.id = x.before.map Local.id :=
    ids_namedAll (by omega)
  unfold compileCase at h
  simp only [ends_bind, ends_ofOption] at h
  obtain ⟨type, s₁, ⟨htype, rfl⟩, ⟨fields, _⟩, s₁, hfields, ⟨ihs, _⟩, s₂, hihs, ⟨after, values⟩, s₃, hafter, h⟩ := h
  obtain ⟨hfields_length, hihs_length, hafter_length, hin, hbetween, hvalues⟩ :=
    hJ.case_telescope hargs hT (mem_of_getElem? hk) htype hfields hihs (by simp; omega) hafter
  generalize namedAll x.before clause.patterns = before at hbefore h
  have hT' : T.Known J.elaborator.env (noFree.pushAll before) := pushAll_of_ids noFree hbefore ▸ hT
  -- Both kinds of clauses come to a right-hand side over the same hypotheses.
  obtain ⟨rhs, minor, hle, hrhs, hstates, hminor, rfl⟩ : ∃ rhs minor, s₃.next ≤ s'.next ∧
      rhs.In ((noFree.pushAll (before ++ fields ++ after)).push J.self.id) 0 ∧
      ClauseEquation J.elaborator J.definition J.self (before ++ fields ++ after)
        ⟨J.level, J.result.subst values, J.definition.constant.apply
          (before.map Local.term ++ [T.construct i k (fields.map Local.term)] ++ after.map Local.term),
          rhs.subst [(J.self.id, J.definition.constant)]⟩ ∧
      Calls.replace ⟨J.self.id, x.before.length, before.map Local.term,
        ((k.recursiveFields fields).map Local.id).zip (ihs.map Local.term)⟩ rhs = .ok minor ∧
      (minor.abs (fields ++ ihs ++ after), J.equation (i + 1) (before ++ fields ++ after) (before.map Local.term ++
          [T.construct i k (fields.map Local.term)] ++ after.map Local.term) rhs (J.result.subst values)) = r := by
    split at h
    · obtain ⟨rhs, s₄, hrhs, h⟩ := h.bind
      obtain ⟨hle, hin, r, hr, rfl⟩ := elaborateRhs_ends hrhs
      obtain ⟨minor, hminor, hcase, rfl⟩ := replaced_of_ends h
      exact ⟨_, minor, hle, hin, .matched hclause hk hr, hminor, hcase⟩
    · obtain ⟨rhs, s₄, hrhs, h⟩ := h.bind
      obtain ⟨hle, hin, r, hr, rfl⟩ := elaborateRhs_ends hrhs
      have hids : (namedAll (x.major :: x.after) (clause.patterns.drop x.before.length)).map Local.id =
          x.major.id :: x.after.map Local.id := ids_namedAll (by simp; omega)
      have hlen : (namedAll (x.major :: x.after) (clause.patterns.drop x.before.length)).length =
          after.length + 1 := by
        rw [← length_map Local.id, hids]
        simp [hafter_length]
      have hvalues' : values = ((namedAll (x.major :: x.after)
          (clause.patterns.drop x.before.length)).map Local.id).zip
            (T.construct i k (fields.map Local.term) :: after.map Local.term) := by
        rw [hids, hvalues, zip_cons_cons]
      rw [hvalues'] at h ⊢
      obtain ⟨minor, hminor, hcase, rfl⟩ := replaced_of_ends h
      exact ⟨_, minor, hle, catchAll_in hT' hlen i k hin, .catchAll hclause hk hlen hr, hminor, hcase⟩
  have hlength : x.before.length = before.length := by
    rw [← length_map Local.id, ← hbefore, length_map]
  rw [hlength] at hminor
  have hreplaced := Calls.replaced_of_replace (by simp [Local.term]) (by simp) hminor
  refine ⟨le_trans hbetween.le hle, ⟨before, fields, ihs, after, rhs, minor, _⟩, ?_, rfl, rfl, rfl⟩
  exact {
    ctor := hk
    before_ids := hbefore
    fields_length := hfields_length
    ihs_length := hihs_length
    telescope_in := hin
    between := ⟨_, hbetween.weaken hn (le_refl _)⟩
    rhs_in := hrhs
    replaced := hreplaced
    states := hstates
    lhs := rfl
    rhs := rfl }

/-! ### All constructors -/

lemma compileCases_ends (hJ : J.Opened n) (hargs : J.args = x.before ++ [x.major] ++ x.after)
    (hT : T.Known J.elaborator.env (noFree.pushAll x.before)) {ks : List (Constructor × Nat)}
    (hks : ∀ j k, ks[j]? = some k → T.family.ctors[i + j]? = some k.1) (hn : n ≤ s.next)
    {r : List Term × List DefiningEquation} (h : FreshM.Ends (J.compileCases x T i ks) s r s') :
    ∃ cs : List Case, cs.length = ks.length ∧ (∀ (j : Nat) (c : Case), cs[j]? = some c → ∃ k, c.Of J x T n (i + j) k) ∧
      r.1 = cs.map (fun c => c.minor.abs c.telescope) ∧
      List.Forall₂ (fun q c => q.type = c.equation.term.pis c.binders ∧ q.proof = c.equation.refl.abs c.binders)
        r.2 cs := by
  induction ks generalizing i s r with
  | nil =>
    obtain ⟨rfl, rfl⟩ := h.pure
    exact ⟨[], rfl, by simp, rfl, .nil⟩
  | cons k ks ih =>
    obtain ⟨k, j⟩ := k
    unfold compileCases at h
    split at h
    · rename_i clause hclause
      simp only [ends_bind] at h
      obtain ⟨⟨minor, q⟩, s₁, hcase, ⟨minors, qs⟩, s₂, hcases, h⟩ := h
      obtain ⟨rfl, rfl⟩ := h.pure
      obtain ⟨hle, c, hc, rfl, hq⟩ :=
        compileCase_ends hJ hargs hT (hks 0 _ rfl) (mem_of_getElem? hclause) hn hcase
      have htail : ∀ j k, ks[j]? = some k → T.family.ctors[i + 1 + j]? = some k.1 := by
        intro j k hk
        rw [add_right_comm]
        exact hks (j + 1) k hk
      obtain ⟨cs, hlen, hof, rfl, hqs⟩ := ih htail (le_trans hn hle) hcases
      refine ⟨c :: cs, congrArg (· + 1) hlen, fun j c' hc' => ?_, rfl, .cons hq hqs⟩
      cases j with
      | zero =>
        obtain rfl := Option.some.inj hc'
        exact ⟨k, hc⟩
      | succ j =>
        rw [← add_assoc, add_right_comm]
        exact hof j c' hc'
    · exact absurd h not_ends_throw

lemma selectClauses_length {t : InductiveType} {heads : List (Option Nat)} {ks : List Nat}
    (h : FreshM.Ends (J.selectClauses t heads) s ks s') : ks.length = t.ctors.length ∧ s = s' := by
  unfold selectClauses at h
  dsimp only at h
  generalize hselected : t.ctors.zipIdx.map _ = selected at h
  have hlen : selected.length = t.ctors.length := by simp [← hselected]
  split at h
  · obtain ⟨_, _, hreject, _⟩ := h.bind
    exact absurd hreject not_ends_throw
  · rename_i hmissing
    split at h
    · exact absurd h not_ends_throw
    · obtain ⟨rfl, rfl⟩ := h.pure
      -- every constructor has a clause, so that none is left out
      have hsome : ∀ p ∈ selected, p.2.isSome := by
        intro p hp
        rw [Option.isSome_iff_ne_none]
        intro hnone
        simp only [Bool.not_eq_true', Bool.not_eq_false, List.isEmpty_iff, filterMap_eq_nil_iff] at hmissing
        have := hmissing p hp
        simp [hnone] at this
      rw [length_filterMap_eq_countP, countP_eq_length.mpr hsome, hlen]
      exact ⟨rfl, rfl⟩

end Job

end Compiler

end ProofAssistant
