import ProofAssistant.Proofs.TypedFamilies

/-!
# The type checker is sound

`Env.Sound` says that an environment is well typed and that its recursors are those of well-typed inductive
declarations. Every operation keeps it, if the universe parameters of an inductive type with constructors are
pairwise distinct (`Env.sound_of_reachable`).

What the checker accepts is derivable (`Env.checker_sound`): always where conversion may lead to any convertible term,
and under this condition where it leads to types only.
-/

namespace ProofAssistant

open List

variable {c n : Name} {T : Term} {next : Nat}
variable {d d' : Decl} {Δ : List Term} {fuel i : Nat} {spec : InductiveSpec} {x : Id}

namespace Env

open Fueled InductiveSpec

variable {env env' : Env}

/-! ## Larger environments -/

lemma recursorOf?_eq_some_iff {t : InductiveType} : env.recursorOf? c = some t ↔
    ∃ d n, env.get? c = some d ∧ d.kind = .recursor n ∧ env.inductive? n = some t := by
  constructor
  · intro h
    unfold recursorOf? at h
    split at h
    · rename_i n hkind
      obtain ⟨d, hd, hkind⟩ := Option.map_eq_some_iff.mp hkind
      exact ⟨d, n, hd, hkind, h⟩
    · simp at h
  · rintro ⟨d, n, hd, hkind, ht⟩
    simp [recursorOf?, hd, hkind, ht]

/-- What is typed stays so where declarations are added and only the names of inductive types are hidden. -/
lemma extends_of_get? (hdecls : ∀ d ∈ env.decls, d ∈ env'.decls)
    (hget : ∀ c d, env.get? c = some d → d.kind ≠ .inductiveType → env'.get? c = some d)
    (hfam : ∀ n t, env.inductive? n = some t → env'.inductive? n = some t) : env.Extends env' where
  decls := hdecls
  families := hfam
  definitions c d v n hd hkind := hget c d hd (by simp [hkind])
  recursors c t h := by
    obtain ⟨d, n, hd, hkind, ht⟩ := recursorOf?_eq_some_iff.mp h
    exact recursorOf?_eq_some_iff.mpr ⟨d, n, hget c d hd (by simp [hkind]), hkind, hfam n t ht⟩

lemma IsType.extend (hext : env.Extends env') {ps : List Name} {Γ : Context}
    (h : env.IsType ps Γ Δ T) : env'.IsType ps Γ Δ T := by
  obtain ⟨l, hl⟩ := h
  exact ⟨l, hl.extend hext⟩

lemma FamilyTyped.extend {E : Env} {a : Accepted E fuel next spec}
    (hext : env.Extends env') (hget : ∀ c d, env.get? c = some d → env'.get? c = some d) (h : env.FamilyTyped a) :
    env'.FamilyTyped a where
  recursor := hget _ _ h.recursor
  family := hext.families _ _ h.family
  name := by
    obtain ⟨d, hd, hkind⟩ := h.name
    exact ⟨d, hget _ _ hd, hkind⟩
  params := h.params
  fields := h.fields
  product o ho := by
    obtain ⟨result, hin, htype, hconv, hself⟩ := h.product o ho
    exact ⟨result, hin, htype.extend hext, hconv.extend hext, hself.extend hext⟩

/-! ## Sound environments -/

/-- The environment is well typed, and its recursors are those of well-typed inductive declarations. -/
structure Sound (env : Env) : Prop where
  typed : env.WellTyped
  recursors : ∀ c d n, env.get? c = some d → d.kind = .recursor n →
    ∃ (E : Env) (fuel next : Nat) (spec : InductiveSpec) (a : Accepted E fuel next spec),
      n = spec.name ∧ d = a.recursorDecl ∧ env.FamilyTyped a ∧ (a.opened ≠ [] → spec.levelParams.Nodup)

lemma Sound.iota (h : env.Sound) : env.IotaTyped := by
  intro c ls ls' t i k n args params fields minor hrec hk hargs hparams hfields hminor ps Γ Δ T hΓ hΔ ht
  obtain ⟨d, m, hd, hkind, hfamily⟩ := recursorOf?_eq_some_iff.mp hrec
  obtain ⟨E, fuel, next, spec, a, rfl, rfl, htyped, hnodup⟩ := h.recursors c d m hd hkind
  obtain rfl : spec.recursor = c := name_of_get? hd
  obtain rfl : a.info = t := Option.some.inj (htyped.family.symm.trans hfamily)
  have hopened : a.opened ≠ [] := by
    intro hnil
    simp [Accepted.info, hnil] at hk
  exact htyped.iota h.typed (hnodup hopened) hk hargs hparams hfields hminor hΓ hΔ ht

lemma Sound.supports (h : env.Sound) : env.Supports True :=
  ⟨h.typed.inScope, fun _ => h.typed, fun _ => h.iota⟩

/-! ### One more declaration -/

section Insert

variable {d : Decl} (hfresh : env.get? d.name = none)
include hfresh

lemma get?_insert_of_fresh (h : env.get? c = some d') : (env.insert d).get? c = some d' := by
  have hne : d.name ≠ c := by
    rintro rfl
    simp [hfresh] at h
  rw [get?_insert, if_neg (by simpa using hne), h]

lemma extends_insert : env.Extends (env.insert d) :=
  extends_of_get? (fun _ => mem_cons_of_mem d) (fun _ _ h _ => get?_insert_of_fresh hfresh h)
    fun _ _ h => h

lemma keeps_insert : env.Keeps (env.insert d) where
  const _ d' h := ⟨d', get?_insert_of_fresh hfresh h, rfl⟩
  ctor _ _ h := h

lemma Scoped.insert (henv : env.Scoped)
    (hterms : ∀ m ∈ d.terms, m.In (env.scope d.levelParams fun _ => False) 0) : (env.insert d).Scoped := by
  have hkeeps := keeps_insert hfresh
  refine ⟨fun d' hd' m hm => ?_, fun n t ht k hk => ?_⟩
  · refine Term.In.widen (hkeeps.scope_le _ _) ?_
    rcases mem_cons.mp hd' with rfl | hd'
    · exact hterms m hm
    · exact henv.terms d' hd' m hm
  · exact (henv.ctors n t ht k hk).widen (hkeeps.scope_le _ _)

lemma WellTyped.insert (henv : env.WellTyped)
    (hterms : ∀ m ∈ d.terms, m.In (env.scope d.levelParams fun _ => False) 0)
    (htype : env.IsType d.levelParams {} [] d.type)
    (hvalue : ∀ v n, d.kind = .definition v n → env.HasType True d.levelParams {} [] v d.type) :
    (env.insert d).WellTyped := by
  have hext := extends_insert hfresh
  have hnew : ∀ d' ∈ env.decls, d'.name ≠ d.name := by
    intro d' hd' hname
    rw [get?, find?_eq_none] at hfresh
    exact hfresh d' hd' (by simpa using hname)
  refine ⟨henv.inScope.insert hfresh hterms, fun d₁ hd₁ d₂ hd₂ hk₁ hk₂ hname => ?_, fun d' hd' hkind => ?_,
    fun d' hd' v n hkind => ?_, fun n t ht k hk => (henv.ctors n t ht k hk).extend hext⟩
  · rcases mem_cons.mp hd₁ with h₁ | h₁ <;> rcases mem_cons.mp hd₂ with h₂ | h₂
    · rw [h₁, h₂]
    · exact absurd (h₁ ▸ hname).symm (hnew d₂ h₂)
    · exact absurd (h₂ ▸ hname) (hnew d₁ h₁)
    · exact henv.unique d₁ h₁ d₂ h₂ hk₁ hk₂ hname
  · rcases mem_cons.mp hd' with rfl | hd'
    · exact htype.extend hext
    · exact (henv.types d' hd' hkind).extend hext
  · rcases mem_cons.mp hd' with rfl | hd'
    · exact (hvalue v n hkind).extend hext
    · exact (henv.values d' hd' v n hkind).extend hext

/-- A typed declaration that is no recursor keeps the environment sound. -/
lemma Sound.insert (henv : env.Sound) (hkind : ∀ n, d.kind ≠ .recursor n)
    (hterms : ∀ m ∈ d.terms, m.In (env.scope d.levelParams fun _ => False) 0)
    (htype : env.IsType d.levelParams {} [] d.type)
    (hvalue : ∀ v n, d.kind = .definition v n → env.HasType True d.levelParams {} [] v d.type) :
    (env.insert d).Sound where
  typed := henv.typed.insert hfresh hterms htype hvalue
  recursors c d' n hget hrec := by
    rw [get?_insert] at hget
    split at hget
    · obtain rfl := Option.some.inj hget
      exact absurd hrec (hkind n)
    · obtain ⟨E, fuel, next, spec, a, hn, hd, htyped, hnodup⟩ := henv.recursors c d' n hget hrec
      exact ⟨E, fuel, next, spec, a, hn, hd,
        htyped.extend (extends_insert hfresh) fun _ _ => get?_insert_of_fresh hfresh, hnodup⟩

end Insert

lemma Sound.insert_accepted (henv : env.Sound) (hfresh : env.get? d.name = none)
    (hacc : env.DeclAccepted d) : (env.insert d).Sound := by
  have hterms := hacc.in_scope
  have htyped {ps : List Name} {fuel next : Nat} {type : Term} {l : Level} (hb : type.Below next)
      (h : (env.inferSort ps fuel next {} type).Yields l) : env.HasType True ps {} [] type (.sort l) :=
    (infersSort_of_inferSort h).hasType henv.supports (.nil next) hb
  refine henv.insert hfresh ?kind hterms ?type ?value
  case kind => cases hacc <;> simp
  case type =>
    cases hacc with
    | postulate hb hl => exact ⟨_, htyped hb hl⟩
    | definition hb _ hl _ => exact ⟨_, htyped hb hl⟩
    | proposition hb _ hl _ _ => exact ⟨_, htyped hb hl⟩
  case value =>
    intro v n hkind
    cases hacc with
    | @definition fuel next c ps type value l hb hbv hl hcheck =>
      obtain ⟨rfl, _⟩ := Decl.Kind.definition.inj hkind
      have htypeIn : type.In (env.scope ps (· ∈ Context.ids {})) 0 :=
        (hterms type (Decl.type_mem_terms _)).widen { free := fun _ (h : False) => h.elim }
      exact (checks_of_check hcheck).hasType henv.supports (.nil next) hbv htypeIn fun _ => ⟨l, htyped hb hl⟩
    | postulate _ _ => simp at hkind
    | proposition _ _ _ _ _ => simp at hkind

/-! ### One more inductive type -/

section InsertInductive

variable {t : InductiveType} (hnew : env.inductive? t.name = none)
include hnew

lemma inductive?_insertInductive_of_new {t' : InductiveType} (h : env.inductive? n = some t') :
    (env.insertInductive t).inductive? n = some t' := by
  have hne : t.name ≠ n := by
    rintro rfl
    simp [hnew] at h
  rw [inductive?, insertInductive, find?_cons_of_neg (by simpa using hne)]
  exact h

lemma extends_insertInductive : env.Extends (env.insertInductive t) :=
  extends_of_get? (fun _ h => h) (fun _ _ h _ => h) fun _ _ => inductive?_insertInductive_of_new hnew

lemma Sound.insertInductive (henv : env.Sound)
    (hctorsIn : ∀ k ∈ t.ctors, k.type.In (env.scope t.levelParams fun _ => False) 0)
    (hctors : ∀ k ∈ t.ctors, env.IsType t.levelParams {} [] k.type) : (env.insertInductive t).Sound := by
  have hext := extends_insertInductive hnew
  have hkeeps : env.Keeps (env.insertInductive t) :=
    ⟨fun _ d h => ⟨d, h, rfl⟩, fun _ _ => inductive?_insertInductive_of_new hnew⟩
  have hcases {n : Name} {t' : InductiveType} (h : (env.insertInductive t).inductive? n = some t') :
      t' = t ∨ env.inductive? n = some t' := by
    rw [inductive?, Env.insertInductive, find?_cons] at h
    split at h
    · exact .inl (Option.some.inj h).symm
    · exact .inr h
  have htyped := henv.typed
  refine ⟨⟨⟨fun d hd m hm => ?_, fun n t' ht' k hk => ?_⟩, htyped.unique, fun d hd hkind => ?_,
    fun d hd v n hkind => ?_, fun n t' ht' k hk => ?_⟩, fun c d n hget hrec => ?_⟩
  · exact (htyped.inScope.terms d hd m hm).widen (hkeeps.scope_le _ _)
  · refine Term.In.widen (hkeeps.scope_le _ _) ?_
    rcases hcases ht' with rfl | ht'
    · exact hctorsIn k hk
    · exact htyped.inScope.ctors n t' ht' k hk
  · exact (htyped.types d hd hkind).extend hext
  · exact (htyped.values d hd v n hkind).extend hext
  · rcases hcases ht' with rfl | ht'
    · exact (hctors k hk).extend hext
    · exact (htyped.ctors n t' ht' k hk).extend hext
  · obtain ⟨E, fuel, next, spec, a, hn, hd, hfamily, hnodup⟩ := henv.recursors c d n hget hrec
    exact ⟨E, fuel, next, spec, a, hn, hd, hfamily.extend hext fun _ _ h => h, hnodup⟩

end InsertInductive

/-! ### An inductive declaration -/

end Env

namespace InductiveSpec.Accepted

variable {d : Decl}

open Env

variable {env : Env} {fuel next : Nat} {spec : InductiveSpec} (a : Accepted env fuel next spec)

/-- Apart from the constructors, only the recursor is declared after the type. -/
lemma mem_withInfo_of_mem_result (hd : d ∈ a.result.decls) (hkind : ∀ t i, d.kind ≠ .constructor t i) :
    d = a.recursorDecl ∨ d ∈ a.withInfo.decls := by
  rw [a.decls_result, newDecls] at hd
  simp only [mem_append, mem_cons, mem_reverse, not_mem_nil, or_false] at hd
  rcases hd with (hd | hd | rfl) | hd
  · exact .inl hd
  · obtain ⟨i, k, _, rfl⟩ := a.kind_of_mem_ctorDecls hd
    exact absurd rfl (hkind spec.name i)
  · exact .inr mem_cons_self
  · exact .inr (mem_cons_of_mem _ hd)

lemma eq_recursorDecl_of_kind (hd : d ∈ a.newDecls) (hkind : d.kind = .recursor n) : d = a.recursorDecl := by
  simp only [newDecls, mem_append, mem_cons, mem_reverse, not_mem_nil, or_false] at hd
  rcases hd with hd | hd | rfl
  · exact hd
  · obtain ⟨i, k, _, rfl⟩ := a.kind_of_mem_ctorDecls hd
    simp at hkind
  · simp [decl] at hkind

lemma recursor_name_ne (hd : d ∈ a.withInfo.decls) : d.name ≠ spec.recursor := by
  rcases mem_cons.mp hd with rfl | hd
  · exact (extend_ne spec.name "rec").symm
  · intro hname
    have hfresh := (fresh_of_checkNames a.names).2.1
    rw [get?, find?_eq_none] at hfresh
    exact hfresh d hd (by simpa using hname)

end InductiveSpec.Accepted

namespace Env

variable {ps : List Name} {Γ : Context}

open Fueled InductiveSpec

variable {env env' : Env}

lemma Growth.extends (hfam : env.FamiliesDeclared) (h : Growth env env') : env.Extends env' :=
  extends_of_get? (fun _ hd => h.decls_suffix.subset hd) (fun _ _ hd _ => h.get?_eq hd) (h.keeps hfam).ctor

lemma inductive?_withType_eq_none (a : Accepted env fuel next spec)
    (hfam : env.FamiliesDeclared) : (env.insert spec.decl).inductive? a.info.name = none := by
  by_contra hsome
  obtain ⟨t, ht⟩ := Option.ne_none_iff_exists'.mp hsome
  obtain ⟨hmem, hname⟩ := name_of_inductive? ht
  obtain ⟨d, hd, _⟩ := hfam t hmem
  rw [hname] at hd
  exact absurd ((fresh_of_checkNames a.names).1.symm.trans hd) nofun

section Family

variable {fuel next : Nat} {spec : InductiveSpec} (a : Accepted env fuel next spec) (hb : spec.Below next)
include a hb

/-- Only the name of the type may mean something else in the end, a constructor. -/
lemma get?_result_of_withType (hd : (env.insert spec.decl).get? c = some d)
    (hkind : d.kind ≠ .inductiveType) : a.result.get? c = some d := by
  rw [get?_insert] at hd
  split at hd
  · obtain rfl := Option.some.inj hd
    exact absurd rfl hkind
  · exact (Growth.family a hb).get?_eq hd

lemma extends_withType (hfam : env.FamiliesDeclared) : (env.insert spec.decl).Extends a.result := by
  refine extends_of_get? (fun d hd => ?_) (fun c d => get?_result_of_withType a hb)
    ((Growth.family a hb).keeps hfam).ctor
  rw [a.decls_result, Accepted.newDecls]
  rcases mem_cons.mp hd with rfl | hd
  · simp
  · exact mem_append_right _ hd

lemma extends_withInfo (hfam : env.FamiliesDeclared) : a.withInfo.Extends a.result :=
  extends_of_get? (extends_withType a hb hfam).decls (fun _ _ hd => get?_result_of_withType a hb hd)
    (a.keeps_withInfo hfam hb).ctor

/-- The environment in which the constructors are checked. -/
lemma Scoped.withType (henv : env.Scoped) : (env.insert spec.decl).Scoped := by
  refine henv.insert (fresh_of_checkNames a.names).1 ?_
  simpa [Decl.terms, decl] using a.type_in hb

/-- The environment in which the recursor is checked. -/
lemma Scoped.withInfo (hfam : env.FamiliesDeclared) (henv : env.Scoped) : a.withInfo.Scoped := by
  have htype := henv.withType a hb
  have hnew := inductive?_withType_eq_none a hfam
  have hkeeps : (env.insert spec.decl).Keeps a.withInfo :=
    ⟨fun _ d h => ⟨d, h, rfl⟩, fun _ _ => inductive?_insertInductive_of_new hnew⟩
  refine ⟨fun d hd m hm => (htype.terms d hd m hm).widen (hkeeps.scope_le _ _),
    fun n t ht k hk => Term.In.widen (hkeeps.scope_le _ _) ?_⟩
  rw [Accepted.withInfo, inductive?, Env.insertInductive, find?_cons] at ht
  split at ht
  · obtain rfl := Option.some.inj ht
    obtain ⟨o, ho, rfl⟩ := mem_map.mp hk
    exact a.ctor_type_in hb ho
  · exact htype.ctors n t ht k hk

lemma Sound.withType (henv : env.Sound) : (env.insert spec.decl).Sound := by
  obtain ⟨l, hl⟩ := a.typed
  have htype : env.HasType True spec.levelParams {} [] spec.type (.sort l) :=
    (infersSort_of_inferSort hl).hasType henv.supports (.nil next) hb.1
  refine henv.insert (fresh_of_checkNames a.names).1 (by simp [decl]) ?_ ⟨l, htype⟩ (by simp [decl])
  simpa [Decl.terms, decl] using a.type_in hb

section

variable (hfam : env.FamiliesDeclared)
include hfam

lemma Sound.withInfo (henv : env.Sound) : a.withInfo.Sound := by
  have htype := henv.withType a hb
  have hnew := inductive?_withType_eq_none a hfam
  refine htype.insertInductive hnew (fun k hk => ?_) fun k hk => ?_
  · obtain ⟨o, ho, rfl⟩ := mem_map.mp hk
    exact a.ctor_type_in hb ho
  · obtain ⟨o, ho, rfl⟩ := mem_map.mp hk
    exact a.ctor_isType htype.typed htype.iota hb ho

lemma Sound.familyTyped (henv : env.Sound) : a.result.FamilyTyped a := by
  have htype := henv.withType a hb
  have hfresh : env.get? spec.decl.name = none := (fresh_of_checkNames a.names).1
  have hparams := (a.params_typed henv.typed henv.iota hb).extend (extends_insert hfresh)
  have hparamsIn := (a.params_inScope henv.typed.inScope hb).mono ((keeps_insert hfresh).scope_le _ _)
  have hle : ((env.insert spec.decl).scope spec.levelParams fun _ => False).Le (levelScope spec.levelParams) :=
    ⟨fun _ h => h, fun _ h => h, fun _ _ h => h.2, fun _ _ _ h => h.2, fun _ _ => trivial⟩
  have hext := extends_withType a hb hfam
  refine ⟨?_, ?_, ?_, hparamsIn.mono hle, fun o ho => ?_, fun o ho => ?_⟩
  · rw [get?, a.decls_result, Accepted.newDecls, cons_append]
    exact find?_cons_of_pos (by simp [Accepted.recursorDecl])
  · rw [inductive?, a.inductives_result]
    exact find?_cons_of_pos (by simp [Accepted.info])
  · obtain ⟨d, hd, hget⟩ := a.get?_result_name
    refine ⟨d, hget, ?_⟩
    rcases mem_cons.mp hd with rfl | hd
    · simp [decl]
    · obtain ⟨i, k, _, rfl⟩ := a.kind_of_mem_ctorDecls hd
      simp
  · exact (Local.allIn_append.mp ((a.telescope_inScope htype.typed.inScope hb hparamsIn ho).mono hle)).2
  · obtain ⟨result, hin, hresult, hconv, hself⟩ := a.product htype.typed htype.iota hb hparams hparamsIn ho
    exact ⟨result, hin, hresult.extend hext, hconv.extend hext, hself.extend hext⟩

lemma Sound.recursor_isType (henv : env.Sound) :
    a.withInfo.IsType a.recursorDecl.levelParams {} [] a.recursorDecl.type := by
  obtain ⟨l, hl⟩ := a.recursorTyped
  have hbelow : a.recursorDecl.type.In { free := fun x => x.number < a.nextFree } 0 :=
    (a.recursor_type_in henv.typed.admits_noFree hb).widen (Scope.le_of_free fun _ (h : False) => h.elim)
  exact ⟨l, (infersSort_of_inferSort hl).hasType (henv.withInfo a hb hfam).supports (.nil _) hbelow⟩

lemma Sound.result (henv : env.Sound) (hscoped : a.result.Scoped)
    (hnodup : a.opened ≠ [] → spec.levelParams.Nodup) : a.result.Sound := by
  have hext := extends_withInfo a hb hfam
  have hinfo := (henv.withInfo a hb hfam).typed
  refine ⟨⟨hscoped, fun d₁ hd₁ d₂ hd₂ hk₁ hk₂ hname => ?unique, fun d hd hkind => ?types,
    fun d hd v n hkind => ?values, fun n t ht k hk => ?ctors⟩, fun c d n hget hrec => ?recursors⟩
  case unique =>
    rcases a.mem_withInfo_of_mem_result hd₁ hk₁ with rfl | h₁ <;>
      rcases a.mem_withInfo_of_mem_result hd₂ hk₂ with rfl | h₂
    · rfl
    · exact absurd hname.symm (a.recursor_name_ne h₂)
    · exact absurd hname (a.recursor_name_ne h₁)
    · exact hinfo.unique d₁ h₁ d₂ h₂ hk₁ hk₂ hname
  case types =>
    rcases a.mem_withInfo_of_mem_result hd hkind with rfl | hd
    · exact (henv.recursor_isType a hb hfam).extend hext
    · exact (hinfo.types d hd hkind).extend hext
  case values =>
    rcases a.mem_withInfo_of_mem_result hd (by simp [hkind]) with rfl | hd
    · simp [Accepted.recursorDecl] at hkind
    · exact (hinfo.values d hd v n hkind).extend hext
  case ctors =>
    rw [inductive?, a.inductives_result] at ht
    exact (hinfo.ctors n t ht k hk).extend hext
  case recursors =>
    rcases a.get?_result hget with hnew | hold
    · obtain rfl := a.eq_recursorDecl_of_kind hnew hrec
      obtain rfl := Decl.Kind.recursor.inj hrec
      exact ⟨env, fuel, next, spec, a, rfl, rfl, henv.familyTyped a hb hfam, hnodup⟩
    · obtain ⟨E, fuel, next, spec, a', hn, hd, hfamily, hnodup⟩ := henv.recursors c d n hold hrec
      have hgrowth := Growth.family a hb
      exact ⟨E, fuel, next, spec, a', hn, hd, hfamily.extend (hgrowth.extends hfam) fun _ _ => hgrowth.get?_eq, hnodup⟩

end

end Family

/-! ### Every operation -/

/-- Operations that make no declaration keep the environment sound. -/
lemma Sound.of_eq (henv : env.Sound) (hext : env.Extends env') (hscoped : env'.Scoped)
    (hdecls : env'.decls = env.decls) (hind : env'.inductives = env.inductives) : env'.Sound := by
  have htyped := henv.typed
  have hget : ∀ c, env'.get? c = env.get? c := fun c => by rw [get?, get?, hdecls]
  have hfamily : ∀ n, env'.inductive? n = env.inductive? n := fun n => by rw [inductive?, inductive?, hind]
  refine ⟨⟨hscoped, hdecls ▸ htyped.unique, fun d hd hkind => ?_, fun d hd v n hkind => ?_,
    fun n t ht k hk => ?_⟩, fun c d n hd hrec => ?_⟩
  · exact (htyped.types d (hdecls ▸ hd) hkind).extend hext
  · exact (htyped.values d (hdecls ▸ hd) v n hkind).extend hext
  · exact (htyped.ctors n t (hfamily n ▸ ht) k hk).extend hext
  · obtain ⟨E, fuel, next, spec, a, hn, hd, hfamily, hnodup⟩ := henv.recursors c d n (hget c ▸ hd) hrec
    exact ⟨E, fuel, next, spec, a, hn, hd, hfamily.extend hext fun c _ h => (hget c).trans h, hnodup⟩

lemma sound_of_reachable (h : Reachable env)
    (hnodup : ∀ t ∈ env.inductives, t.ctors ≠ [] → t.levelParams.Nodup) : env.Sound := by
  induction h with
  | refl =>
    have hempty : ∀ {d : Decl}, d ∉ ({} : Env).decls := not_mem_nil
    exact ⟨⟨scoped_of_reachable .refl, fun _ h => absurd h hempty, fun _ h => absurd h hempty,
      fun _ h => absurd h hempty, fun _ _ h => nomatch h⟩, fun _ _ _ h => nomatch h⟩
  | @tail env env' hreach hadd ih =>
    have hfam := familiesDeclared hreach
    have hscoped := scoped_of_reachable (hreach.tail hadd)
    have hext := hadd.growth.extends hfam
    cases hadd.growth with
    | decl d hfresh hacc => exact (ih hnodup).insert_accepted hfresh hacc
    | family a hb =>
      rw [a.inductives_result, forall_mem_cons] at hnodup
      refine (ih hnodup.2).result a hb hfam hscoped fun hopened => hnodup.1 ?_
      simpa [Accepted.info] using hopened
    | registration hdecls hind _ => exact (ih (hind ▸ hnodup)).of_eq hext hscoped hdecls hind

/-! ## Soundness -/

/-- The hypotheses have distinct identities, and the type of each is accepted in the context of those before
it. -/
inductive ContextAccepted (env : Env) (ps : List Name) : Context → Prop
  | nil : ContextAccepted env ps {}
  | add {Γ : Context} {x : Local} {fuel next : Nat} {l : Level} : ContextAccepted env ps Γ → x.id ∉ Γ.ids →
    (∀ y ∈ Γ.ids, y.number < next) → x.type.Below next → (env.inferSort ps fuel next Γ x.type).Yields l →
    ContextAccepted env ps (Γ.add x)

lemma ContextAccepted.contextFor {strict : Prop} (henv : env.Supports strict) (h : env.ContextAccepted ps Γ)
    (hnext : ∀ x ∈ Γ.ids, x.number < next) : env.ContextFor strict ps next Γ := by
  induction h generalizing next with
  | nil => exact .nil next
  | add _ hfresh hbelow htype hsort ih =>
    have hsort := infersSort_of_inferSort hsort
    have hx := hsort.hasType henv (ih hbelow) htype
    obtain ⟨S, _, hS, _⟩ := hsort
    exact ⟨(ih hbelow).inScope.add (hS.in_scope htype),
      fun hs => ((ih hbelow).typed hs).add henv.inScope hfresh ⟨_, eq_true hs ▸ hx⟩, hnext⟩

/-- The type checker is sound in contexts of accepted types: the type that it infers is one of the term, and so is every
accepted type that it checks the term against. Conversion may be restricted to lead to types only, if the universe
parameters of each inductive type with constructors are pairwise distinct. -/
theorem checker_sound (henv : Reachable env) {strict : Prop}
    (hstrict : strict → ∀ t ∈ env.inductives, t.ctors ≠ [] → t.levelParams.Nodup) {ps : List Name} {Γ : Context}
    (hΓ : env.ContextAccepted ps Γ) {next : Nat} (hnext : ∀ x ∈ Γ.ids, x.number < next) {m : Term}
    (hm : m.Below next) :
    (∀ fuel T, (env.infer ps fuel next Γ m).Yields T → env.HasType strict ps Γ [] m T) ∧
    ∀ fuel fuel' A l, A.Below next → (env.inferSort ps fuel next Γ A).Yields l →
      (env.check ps fuel' next Γ m A).Yields () → env.HasType strict ps Γ [] m A := by
  have hsound (hs : strict) : env.Sound := sound_of_reachable henv (hstrict hs)
  have hsupports : env.Supports strict :=
    ⟨scoped_of_reachable henv, fun hs => (hsound hs).typed, fun hs => (hsound hs).iota⟩
  have hΓ := hΓ.contextFor hsupports hnext
  refine ⟨fun fuel T h => (infers_of_infer h).hasType hsupports hΓ hm, fun fuel fuel' A l hA hsort hcheck => ?_⟩
  have hsort := infersSort_of_inferSort hsort
  have htype := hsort.hasType hsupports hΓ hA
  obtain ⟨S, _, hS, _⟩ := hsort
  exact (checks_of_check hcheck).hasType hsupports hΓ hm (hS.in_scope hA) fun hs => ⟨l, eq_true hs ▸ htype⟩

/-- The successor of the double of a number, which is a hypothesis, is a number. -/
theorem succ_double_hasType : ∃ env Γ m, Reachable env ∧ (∀ t ∈ env.inductives, t.ctors ≠ [] → t.levelParams.Nodup) ∧
    env.ContextAccepted [] Γ ∧ Γ.ids = [⟨0, some ⟨"n"⟩⟩] ∧
    m = numberSucc (.app (.const ⟨"double"⟩ []) (.free ⟨0, some ⟨"n"⟩⟩)) ∧
    env.HasType True [] Γ [] m (.const ⟨"N"⟩ []) := by
  let n : Local := .new 0 ⟨"n"⟩ (.const ⟨"N"⟩ [])
  let m : Term := numberSucc (.app (.const ⟨"double"⟩ []) n.term)
  have hadd : ∃ env₁ env₂, (({} : Env).addInductive 20 0 numbers).Yields env₁ ∧
      (env₁.addDefinition 20 0 ⟨"double"⟩ [] (.arrow (.const ⟨"N"⟩ []) (.const ⟨"N"⟩ []))
        numberDouble).Yields env₂ ∧ (∀ t ∈ env₂.inductives, t.levelParams = []) ∧
      (env₂.inferSort [] 20 0 {} n.type).Yields .one ∧
      (env₂.infer [] 20 1 (Context.add {} n) m).Yields (.const ⟨"N"⟩ []) :=
    ⟨_, _, rfl, rfl, List.forall_mem_singleton.mpr rfl, rfl, rfl⟩
  obtain ⟨env₁, env₂, hN, hdouble, hlevels, hsort, hinfer⟩ := hadd
  have hreach : Reachable env₂ :=
    (Relation.ReflTransGen.single (.family numbers_below hN)).tail (added_numberDouble hdouble)
  have hnodup (t : InductiveType) (ht : t ∈ env₂.inductives) (_ : t.ctors ≠ []) : t.levelParams.Nodup :=
    hlevels t ht ▸ .nil
  have hΓ : env₂.ContextAccepted [] (Context.add {} n) :=
    .add .nil (List.not_mem_nil) (fun _ h => absurd h List.not_mem_nil) (by simp [n, Local.new, Term.Below, Term.In]) hsort
  have hm : m.Below 1 := by
    simp [m, n, numberSucc, Local.new, Local.term, Term.Below, Term.In]
  exact ⟨env₂, _, m, hreach, hnodup, hΓ, rfl, rfl,
    (checker_sound hreach (fun _ => hnodup) hΓ (by decide) hm).1 20 _ hinfer⟩

/-- If conversion leads to types only, a type of a hypothesis is its declared type or well-formed. -/
lemma HasType.free_declared_or_isType (h : env.HasType True ps Γ Δ (.free x) T) :
    (∃ d, Γ.get? x = some d ∧ T = d.type) ∨ env.IsType ps Γ Δ T := by
  cases h with
  | free hd => exact .inl ⟨_, hd, rfl⟩
  | conv _ _ hB => exact .inr ⟨_, hB trivial⟩

/-- The declared type of a hypothesis that is applied, if no product, has to be converted, so the application has a
type. -/
lemma HasType.isType_of_free_app (henv : env.Scoped) (hΓ : Γ.Scoped) {d : Local} (hd : Γ.get? x = some d)
    (hpi : ∀ y i t b, d.type ≠ .pi y i t b) {a : Term} (h : env.HasType True ps Γ [] (.app (.free x) a) T) :
    env.IsType ps Γ [] T := by
  cases h with
  | app hf ha =>
    obtain ⟨d', hd', hT⟩ | ⟨l, hT⟩ := hf.free_declared_or_isType
    · exact absurd (Option.some.inj (hd.symm.trans hd') ▸ hT.symm) (hpi _ _ _ _)
    · obtain ⟨_, l', _, hb, _⟩ := hT.pi_inv
      exact ⟨l', hb.instantiate henv hΓ ha⟩
  | conv _ _ hB => exact ⟨_, hB trivial⟩

/-- Constructors at levels of different values are not convertible. -/
lemma not_conv_ctor (henv : env.Admits noFree) {family : Name} {ls ls' : List Level}
    (h : ls.map Level.meaning ≠ ls'.map Level.meaning) : ¬ env.Conv (.ctor family i n ls) (.ctor family i n ls') := by
  intro hconv
  have hconv : env.Conv ((Term.ctor family i n ls).apply []) ((Term.ctor family i n ls').apply []) := hconv
  have hatom := (hconv.apply_inj henv rfl rfl (Skel.rigid_ctor ..) (Skel.rigid_ctor ..)).1
  exact h (Atom.ctor.inj hatom).2.2

/-- A type with one constructor and two universe parameters of the same name. -/
def twice : InductiveSpec :=
  ⟨⟨"T"⟩, [⟨"u"⟩, ⟨"u"⟩], 0, .type, [(⟨"T.c"⟩, .const ⟨"T"⟩ [.param ⟨"u"⟩, .param ⟨"u"⟩])]⟩

/-- Its constructor. The second level has no effect on the type. -/
def twiceCtor (l : Level) : Term :=
  .ctor ⟨"T"⟩ 0 ⟨"T.c"⟩ [.zero, l]

/-- Two universe parameters of the same name break this for restricted conversion: `T.c` has the type `T.{0,0}` at the
levels `0, 0` and `0, 1`, which are not convertible, and ι forgets which of them the recursor is applied to. So the type
of `f` unfolds to `Π p, R a`, which is none, since `a` is in `X (T.c.{0,1})` and `R` is about `X (T.c.{0,0})`. -/
theorem repeated_levels_ill_typed : ∃ env Γ m T, Reachable env ∧ env.ContextAccepted [] Γ ∧
    (∀ x ∈ Γ.ids, x.number < 5) ∧ m.Below 5 ∧ (env.infer [] 20 5 Γ m).Yields T ∧
    ¬ env.HasType True [] Γ [] m T := by
  let X : Local := .new 0 ⟨"X"⟩ (.arrow (.const ⟨"T"⟩ [.zero, .zero]) .type)
  let a : Local := .new 1 ⟨"a"⟩ (.app X.term (twiceCtor .one))
  let R : Local := .new 2 ⟨"R"⟩ (.arrow (.app X.term (twiceCtor .zero)) .type)
  let f : Local := .new 3 ⟨"f"⟩ ((Term.const ⟨"T.rec"⟩ [.succ .one, .zero, .zero]).apply
    [.lam ⟨"t"⟩ (.const ⟨"T"⟩ [.zero, .zero]) (.arrow (.app X.term (.var 0)) .type),
      .lam ⟨"x"⟩ (.app X.term (twiceCtor .zero)) (.pi ⟨"p"⟩ false .prop (.app R.term (.var 1))),
      twiceCtor .one, a.term])
  let q : Local := .new 4 ⟨"q"⟩ .prop
  let Γ : Context := ((((Context.add {} X).add a).add R).add f).add q
  have hadd : ∃ env, (({} : Env).addInductive 20 0 twice).Yields env ∧
      (∃ l, (env.inferSort [] 20 0 {} X.type).Yields l) ∧
      (∃ l, (env.inferSort [] 20 1 (Context.add {} X) a.type).Yields l) ∧
      (∃ l, (env.inferSort [] 20 2 ((Context.add {} X).add a) R.type).Yields l) ∧
      (∃ l, (env.inferSort [] 20 3 (((Context.add {} X).add a).add R) f.type).Yields l) ∧
      (∃ l, (env.inferSort [] 20 4 ((((Context.add {} X).add a).add R).add f) q.type).Yields l) ∧
      (env.infer [] 20 5 Γ (.app f.term q.term)).Yields (.app R.term a.term) :=
    ⟨_, rfl, ⟨_, rfl⟩, ⟨_, rfl⟩, ⟨_, rfl⟩, ⟨_, rfl⟩, ⟨_, rfl⟩, rfl⟩
  obtain ⟨env, hT, ⟨_, hX⟩, ⟨_, ha⟩, ⟨_, hR⟩, ⟨_, hf⟩, ⟨_, hq⟩, hinfer⟩ := hadd
  have hbelow : twice.Below 0 := by
    simp [InductiveSpec.Below, twice, Term.Below, Term.type, Term.In]
  have hreach : Reachable env := .single (.family hbelow hT)
  have hΓ : env.ContextAccepted [] Γ := by
    refine .add (.add (.add (.add (.add .nil ?_ ?_ ?_ hX) ?_ ?_ ?_ ha) ?_ ?_ ?_ hR) ?_ ?_ ?_ hf) ?_ ?_ ?_ hq
    all_goals first
      | decide
      | simp [X, a, R, f, q, twiceCtor, Local.new, Local.term, Term.Below, Term.arrow, Term.type, Term.prop,
          Term.apply, Term.In]
  have hlt : ∀ x ∈ Γ.ids, x.number < 5 := by decide
  refine ⟨env, Γ, .app f.term q.term, .app R.term a.term, hreach, hΓ, hlt, ?_, hinfer, fun h => ?_⟩
  · simp [f, q, Local.new, Local.term, Term.Below, Term.In]
  have henv := scoped_of_reachable hreach
  have hscope := (hΓ.contextFor (⟨henv, False.elim, False.elim⟩ : env.Supports False) hlt).inScope.inScope
  have hadmits : env.Admits noFree := henv.admits_noFree
  obtain ⟨l, hRa⟩ := h.isType_of_free_app henv hscope (d := f) rfl (by rintro _ _ _ _ ⟨⟩)
  obtain ⟨_, _, t, _, hRpi, hat, _⟩ := hRa.app_inv
  obtain ⟨R', hR', hRpi⟩ := hRpi.free_inv
  obtain ⟨a', ha', hat⟩ := hat.free_inv
  obtain rfl : R = R' := Option.some.inj hR'
  obtain rfl : a = a' := Option.some.inj ha'
  -- the domain of `R` and the type of `a` are convertible to `t`
  have hdomain : env.Conv (X.term.apply [twiceCtor .zero]) (X.term.apply [twiceCtor .one]) :=
    (hRpi.pi_inj hadmits).1.trans hat.symm
  have hrigid : Skel.Rigid env (.free X.id) 1 := ⟨by rintro _ ⟨⟩, by rintro _ _ _ ⟨⟩⟩
  have hctor := (hdomain.apply_inj hadmits rfl rfl hrigid hrigid).2
  refine not_conv_ctor hadmits ?_ (List.forall₂_cons.mp hctor).1
  intro hlevels
  have hmeaning : Level.zero.meaning = Level.one.meaning := (List.cons.inj (List.cons.inj hlevels).2).1
  exact absurd (congrFun hmeaning ⟨fun _ => 0, fun _ => 0⟩) Nat.zero_ne_one

end Env

end ProofAssistant
