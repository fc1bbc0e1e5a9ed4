import ProofAssistant.Proofs.Renaming
import ProofAssistant.Proofs.Soundness

/-!
# The rule of a recursor

The type of a recursor and its rule are made by different functions. `Env.recursor_rule_typed` says that they agree:
the recursor on a constructor and what it reduces to get the same type from the checker, the motive on that
constructor. Both derivations follow the types that the declaration was checked with.
-/

namespace ProofAssistant

open List Term Local Context

variable {S : Scope} {m : Term} {x : Local} {Γ : Context}
variable {xs : List Local} {body selfApp : Term} {P : Id → Prop} {ps qs : List Name}

/-! ## Own parameters and own hypotheses -/

lemma Level.lookupParam_own (ps : List Name) (p : Name) : lookupParam ps (ps.map .param) p = .param p := by
  induction ps with
  | nil => rfl
  | cons q ps ih =>
    by_cases hp : p = q
    · subst hp
      simp [lookupParam]
    · have hpq : (p == q) = false := by simpa using hp
      simpa only [lookupParam, map_cons, zip_cons_cons, lookup_cons, hpq] using ih

lemma Term.instantiateLevelParams_own (ps : List Name) (m : Term) :
    m.instantiateLevelParams ps (ps.map .param) = m := by
  rw [instantiateLevelParams_eq_mapLevels]
  refine mapLevels_eq_self (fun l => ?_) m
  rw [Level.instantiateParams]
  induction l with
  | param p => exact Level.lookupParam_own ps p
  | succ l ih => rw [Level.subst, ih]
  | max a b iha ihb | imax a b iha ihb => rw [Level.subst, iha, ihb]
  | _ => rfl

lemma Term.instantiate_close (hm : m.In S 0) (x : Id) (a : Term) :
    (m.close [x] 0).instantiate a = m.replace (Replacement.id.put x a) := by
  have h := replace_close_instantiate hm .id x a
  rwa [up_id, replace_id] at h

lemma Term.instantiate_close_self (hm : m.In S 0) (x : Id) : (m.close [x] 0).instantiate (.free x) = m := by
  rw [instantiate_close hm]
  refine hm.replace_eq_self fun y _ => ?_
  by_cases hy : y = x
  · exact (if_pos hy).trans (congrArg _ hy.symm)
  · exact if_neg hy

lemma Term.instantiate_close_of_fresh (hm : m.In S 0) {x : Id} (hx : ¬ S.free x) (a : Term) :
    (m.close [x] 0).instantiate a = m := by
  rw [instantiate_close hm]
  refine hm.replace_eq_self fun y hy => if_neg ?_
  rintro rfl
  exact hx hy

lemma Term.beta_free (x : Id) (as : List Term) : (free x).beta as = (free x).apply as := by
  cases as <;> rfl

lemma Local.AllIn.of_pis {S' : Scope} (hxs : AllIn S xs) (hm : m.In (S.pushAll xs) 0)
    (h : (m.pis xs).In S' 0) : AllIn S' xs := by
  induction xs generalizing S S' with
  | nil => trivial
  | cons x xs ih =>
    rw [pis_cons] at h
    refine ⟨h.1, ih hxs.2 hm ?_⟩
    have hopen := (h.2.widen (S'.le_push x.id)).instantiate (a := .free x.id) (.inr rfl)
    rwa [instantiate_close_self (.pis hxs.2 hm)] at hopen

lemma Context.get?_of_mem (hΓ : Γ.ids.Nodup) (hx : x ∈ Γ.locals) : Γ.get? x.id = some x := by
  cases hget : Γ.get? x.id with
  | none =>
    rw [get?, find?_eq_none] at hget
    exact absurd (beq_self_eq_true x.id) (hget x (mem_reverse.mpr hx))
  | some y =>
    have hy : y ∈ Γ.locals := mem_reverse.mp (mem_of_find?_eq_some hget)
    have hid : y.id = x.id := by simpa using find?_some hget
    rw [inj_on_of_nodup_map hΓ hy hx hid]

lemma Scope.pushAll_eq (S : Scope) (xs : List Local) :
    S.pushAll xs = { S with free := fun y => S.free y ∨ y ∈ xs.map Local.id } := by
  induction xs generalizing S with
  | nil => simp [pushAll]
  | cons x xs ih =>
    rw [pushAll, List.foldl_cons, ← pushAll, ih, push]
    simp only [List.map_cons, List.mem_cons, or_assoc]

lemma Local.AllIn.type_in_pushAll (h : AllIn S xs) (hx : x ∈ xs) : x.type.In (S.pushAll xs) 0 := by
  induction xs generalizing S with
  | nil => simp at hx
  | cons y xs ih =>
    rcases mem_cons.mp hx with rfl | hx
    · exact h.1.widen (S.le_pushAll _)
    · exact ih h.2 hx

namespace Env

variable {m : Term} {xs : List Local}

open Fueled InductiveSpec

variable {env env' : Env} {ps : List Name} {Γ : Context} {next : Nat}

lemma isDefEq_of_alphaEq {a b : Term} (h : a.alphaEq b) : env.isDefEq 1 next a b = some true := by
  rw [isDefEq_succ, if_pos h]

lemma whnf_pi (x : Name) (i : Bool) (t b : Term) : env.whnf 2 (.pi x i t b) = some (.pi x i t b) := rfl

/-- A term on hypotheses of the context, if its type is the product over them. -/
lemma Infers.apply_terms (hxs : Local.AllIn S xs) (hbody : body.In (S.pushAll xs) 0)
    (hget : ∀ x ∈ xs, Γ.get? x.id = some x) (h : env.Infers ps next Γ m (body.pis xs)) :
    env.Infers ps next Γ (m.apply (xs.map term)) body := by
  induction xs generalizing S m with
  | nil => simpa using h
  | cons x xs ih =>
    obtain ⟨hx, hget⟩ := forall_mem_cons.mp hget
    rw [pis_cons] at h
    have happ := Infers.app h (whnf_pi ..) (.free hx) (isDefEq_of_alphaEq (alphaEq_refl x.type))
    rw [instantiate_close_self (.pis hxs.2 hbody)] at happ
    exact ih hxs.2 hbody hget happ

/-- A term on arguments, if its type is a product that does not depend on them. -/
lemma Infers.apply_constant {as : List Term} (hxs : ∀ x ∈ xs, x.type.In S 0 ∧ ¬ S.free x.id)
    (hbody : body.In S 0) (has : List.Forall₂ (fun x a => env.Infers ps next Γ a x.type) xs as)
    (h : env.Infers ps next Γ m (body.pis xs)) : env.Infers ps next Γ (m.apply as) body := by
  induction has generalizing m with
  | nil => simpa using h
  | @cons x a xs as ha _ ih =>
    obtain ⟨⟨_, hx⟩, hxs⟩ := forall_mem_cons.mp hxs
    have hrest : (body.pis xs).In S 0 :=
      .pis (.of_forall fun y hy => (hxs y hy).1) (hbody.widen (S.le_pushAll xs))
    rw [pis_cons] at h
    have happ := Infers.app h (whnf_pi ..) ha (isDefEq_of_alphaEq (alphaEq_refl x.type))
    rw [instantiate_close_of_fresh hrest hx] at happ
    exact ih hxs happ

lemma scope_le_params (h : ∀ p ∈ qs, p ∈ ps) : (env.scope qs P).Le (env.scope ps P) := by
  have hlevel (l : Level) (hl : l.Admitted qs) : l.Admitted ps := ⟨hl.1, fun p hp => h p (hl.2 p hp)⟩
  exact ⟨fun _ hx => hx, hlevel, fun c ls hc => ⟨hc.1, fun l hl => hlevel l (hc.2 l hl)⟩,
    fun t i ls hc => ⟨hc.1, fun l hl => hlevel l (hc.2 l hl)⟩, fun _ hh => hh⟩

lemma scope_pushAll_le (env : Env) (ps : List Name) (xs : List Local) :
    ((env.scope ps fun _ => False).pushAll xs).Le (env.scope ps (· ∈ xs.map Local.id)) := by
  rw [Scope.pushAll_eq]
  exact { free := fun x hx => hx.resolve_left id }

/-! ## After an inductive declaration -/

lemma family_of_recursor {env : Env} (h : Reachable env) {d : Decl} (hd : d ∈ env.decls) {n : Name}
    (hkind : d.kind = .recursor n) : ∃ t, env.inductive? n = some t := by
  induction h with
  | refl => simp at hd
  | @tail env env' hreach hadd ih =>
    have hkeeps := hadd.growth.keeps (familiesDeclared hreach)
    have hold (hd : d ∈ env.decls) : ∃ t, env'.inductive? n = some t := by
      obtain ⟨t, ht⟩ := ih hd
      exact ⟨t, hkeeps.ctor n t ht⟩
    cases hadd.growth with
    | decl d' _ hacc =>
      rcases mem_cons.mp hd with rfl | hd
      · cases hacc <;> simp at hkind
      · exact hold hd
    | @family _ _ spec a _ =>
      rw [a.decls_result] at hd
      rcases mem_append.mp hd with hd | hd
      · obtain rfl := a.eq_recursorDecl_of_kind hd hkind
        obtain rfl := Decl.Kind.recursor.inj hkind
        exact ⟨a.info, by simp [inductive?, a.inductives_result, Accepted.info]⟩
      · exact hold hd
    | registration hdecls _ _ => exact hold (hdecls ▸ hd)

section

variable {fuel next : Nat} {spec : InductiveSpec} (a : Accepted env fuel next spec) (hb : spec.Below next)

include hb in
/-- What the constructors are checked with goes on in the end. -/
lemma continues_withType (henv : Reachable env) : (env.insert spec.decl).Continues a.result := by
  have hgrowth := Growth.family a hb
  have hget (c : Name) (d : Decl) (hd : (env.insert spec.decl).get? c = some d) : a.result.get? c = some d ∨
      d.kind = .inductiveType ∧ ∃ d' t i, a.result.get? c = some d' ∧ d'.kind = .constructor t i := by
    by_cases hkind : d.kind = .inductiveType
    · rw [get?_insert] at hd
      split at hd
      · rename_i hc
        obtain rfl := Option.some.inj hd
        obtain rfl : spec.name = c := by simpa [decl] using hc
        obtain ⟨d', hd', hget⟩ := a.get?_result_name
        rcases mem_cons.mp hd' with rfl | hd'
        · exact .inl hget
        · obtain ⟨i, k, _, rfl⟩ := a.kind_of_mem_ctorDecls hd'
          exact .inr ⟨hkind, _, _, _, hget, rfl⟩
      · exact .inl (hgrowth.get?_eq hd)
    · exact .inl (get?_result_of_withType a hb hd hkind)
  refine ⟨hget, fun c d hd => ?_, fun n t ht => (hgrowth.keeps (familiesDeclared henv)).ctor n t ht⟩
  rcases hget c d hd with hd' | ⟨hkind, d', t, i, hd', hkind'⟩
  · cases hkind : d.kind with
    | recursor n =>
      have hold : d ∈ env.decls := by
        rcases mem_cons.mp (mem_of_find?_eq_some hd) with rfl | hold
        · simp [decl] at hkind
        · exact hold
      obtain ⟨t, ht⟩ := family_of_recursor henv hold hkind
      have ht' := (hgrowth.keeps (familiesDeclared henv)).ctor n t ht
      have hwith : (env.insert spec.decl).inductive? n = some t := ht
      simp only [recursorOf?, hd, hd', Option.map_some, hkind, ht', hwith]
    | _ => simp only [recursorOf?, hd, hd', Option.map_some, hkind]
  · simp only [recursorOf?, hd, hd', Option.map_some, hkind, hkind']

lemma Infers.passParams (henv : (env.insert spec.decl).Scoped) (hcont : (env.insert spec.decl).Continues env')
    {Γ Γ₀ : Context} {n n' : Nat} {c : Name × Term} {F rest : Term}
    (hF : F.In ((env.insert spec.decl).scope spec.levelParams P) 0)
    (hxs : ∀ x ∈ xs, P x.id ∧ x.type.In ((env.insert spec.decl).scope spec.levelParams P) 0)
    (hP : ∀ x, P x → x.number < n ∧ x.number < n') (hget : ∀ x ∈ xs, Γ.get? x.id = some x)
    (hpass : (passParams (env.insert spec.decl) spec fuel n Γ₀ c xs F).Yields rest)
    (h : env'.Infers ps n' Γ m F) : env'.Infers ps n' Γ (m.apply (xs.map term)) rest := by
  have hput := hcont.relabels henv spec.levelParams P
  have hS := henv.admits_scope spec.levelParams P
  have hid : Renaming ((env.insert spec.decl).scope spec.levelParams P) n n' id :=
    ⟨fun _ _ _ _ h => h, fun x hx => (hP x hx).1, fun x hx => (hP x hx).2⟩
  induction xs generalizing m F with
  | nil => simpa using yields_pure.mp hpass ▸ h
  | cons x xs ih =>
    obtain ⟨⟨hx, hxtype⟩, hxs⟩ := forall_mem_cons.mp hxs
    obtain ⟨hgetx, hget⟩ := forall_mem_cons.mp hget
    obtain ⟨y, i, t, b, hwhnf, hconv, hpass⟩ := passParams_cons hpass
    obtain ⟨ht, hb⟩ := (steps_of_whnf hwhnf).in_scope hS hF
    have hwhnf' : env'.whnf fuel F = some (.pi y i t b) := by
      have := hput.whnf hS hF id fuel
      rwa [relabel_id, hwhnf, Option.map_some, relabel_id] at this
    have hconv' : env'.isDefEq fuel n' x.type t = some true := by
      have := isDefEq_relabel hput hS hid ht hxtype fuel
      rwa [relabel_id, relabel_id, hconv, isDefEq_comm] at this
    exact ih (hb.instantiate (a := x.term) hx) hxs hget hpass (.app h hwhnf' (.free hgetx) hconv')

lemma Infers.openFields {E : Env} {Γ Γ₀ Γ₁ : Context} {n n' : Nat} {sort : Level}
    {c : Name} {fields : List (Local × Bool)} {F rest : Term} (hget : ∀ x ∈ fields, Γ.get? x.1.id = some x.1)
    (hopen : (openFields E spec sort selfApp c fuel n Γ₀ F).Yields (fields, Γ₁, rest))
    (h : env.Infers ps n' Γ m F) : env.Infers ps n' Γ (m.apply ((fields.map Prod.fst).map term)) rest := by
  induction fuel generalizing n Γ₀ F fields m with
  | zero => simp [openFields] at hopen
  | succ fuel ih =>
    rcases openFields_cases hopen with ⟨x, i, t, b, rfl⟩ | ⟨rfl, rfl⟩
    · obtain ⟨recursive, fields', _, _, hrec, rfl⟩ := openFields_pi hopen
      obtain ⟨hx, hget⟩ := forall_mem_cons.mp hget
      have hfield := Infers.app h (whnf_pi ..) (.free hx) (isDefEq_of_alphaEq (alphaEq_refl t))
      have hrest := ih hget hrec hfield
      exact hrest
    · exact h

end

end Env

/-! ## The recursor on a constructor -/

namespace InductiveSpec.Accepted

variable {o : OpenedCtor} {i : Nat} {minor : Local}

open Env

variable {env : Env} {fuel next : Nat} {spec : InductiveSpec} (a : Accepted env fuel next spec)

/-- The hypotheses of the recursor without the scrutinee, and the fields of a constructor. -/
def ruleContext (o : OpenedCtor) : Context :=
  ⟨a.params ++ [a.motive] ++ a.minors ++ o.fields⟩

/-- The recursor on the parameters, the motive and the minor premises. -/
def recursorApp : Term :=
  (const spec.recursor (a.recursorDecl.levelParams.map .param)).apply
    ((a.params ++ [a.motive] ++ a.minors).map term)

/-- What the recursor on a constructor reduces to: the minor premise on the fields, and on a recursive call for
each recursive field. -/
def ruleResult (minor : Local) (o : OpenedCtor) : Term :=
  minor.term.apply (o.fields.map term ++ o.recursiveFields.map fun x => a.recursorApp.app x.term)

lemma ruleContext_nodup (ho : o ∈ a.opened) : (a.ruleContext o).ids.Nodup := by
  refine .of_map Id.number ?_
  have hle := a.le_nextFree ho
  have hrange (s n : Nat) : (List.range' s n).Nodup := nodup_range'
  have hmotive : a.motive.id.number = a.nextFree := rfl
  have hnumbers (xs : List Local) : (xs.map Local.id).map Id.number = xs.map (·.id.number) := List.map_map
  rw [ruleContext, Context.ids, hnumbers]
  simp only [map_append, a.params_numbers, a.minors_numbers, a.fields_numbers ho, map_cons, map_nil,
    hmotive, nodup_append, hrange, nodup_singleton, mem_append, mem_range'_1, mem_singleton]
  grind

lemma get?_ruleContext (ho : o ∈ a.opened) (hx : x ∈ (a.ruleContext o).locals) :
    (a.ruleContext o).get? x.id = some x :=
  get?_of_mem (a.ruleContext_nodup ho) hx

section

variable {a} {ps : List Name} {Γ : Context} {n : Nat}

lemma get?_recursor : a.result.get? spec.recursor = some a.recursorDecl := by
  show List.find? _ a.result.decls = _
  rw [a.decls_result, newDecls]
  simp [recursorDecl]

lemma inductive?_result : a.result.inductive? spec.name = some a.info := by
  simp [inductive?, a.inductives_result, info]

lemma admitted_levels {l : Level} (hl : l ∈ spec.levels) : l.Admitted a.recursorDecl.levelParams := by
  obtain ⟨p, hp, rfl⟩ := mem_map.mp hl
  exact Level.admitted_param.mpr (mem_append_right _ hp)

lemma infers_recursor : a.result.Infers a.recursorDecl.levelParams n Γ
    (.const spec.recursor (a.recursorDecl.levelParams.map .param)) a.recursorDecl.type := by
  have hlevels : ∀ l ∈ a.recursorDecl.levelParams.map Level.param, l.Admitted a.recursorDecl.levelParams := by
    intro l hl
    obtain ⟨p, hp, rfl⟩ := mem_map.mp hl
    exact Level.admitted_param.mpr hp
  have h : a.result.Infers a.recursorDecl.levelParams n Γ
      (.const spec.recursor (a.recursorDecl.levelParams.map .param)) _ :=
    .const a.get?_recursor (fun _ _ => nofun) (length_map _).symm hlevels
  rwa [instantiateLevelParams_own] at h

variable (henv : Reachable env) (hb : spec.Below next)

include henv hb

lemma infers_recursorApp (hget : ∀ x ∈ a.params ++ [a.motive] ++ a.minors, Γ.get? x.id = some x) {v V : Term}
    {fuel' : Nat} (hv : a.result.Infers a.recursorDecl.levelParams n Γ v V)
    (hV : a.result.isDefEq fuel' n V (spec.selfApp a.params) = some true) :
    a.result.Infers a.recursorDecl.levelParams n Γ (a.recursorApp.app v) (a.motive.term.app v) := by
  have hadmits := (scoped_of_reachable henv).admits_noFree
  have htelescope : Local.AllIn noFree (a.params ++ [a.motive] ++ a.minors ++ [a.major]) :=
    recursor_telescope_in (a.params_in hadmits hb) fun o ho => a.fields_in hadmits hb ho
  have hbody : (a.motive.term.app a.major.term).In
      (noFree.pushAll (a.params ++ [a.motive] ++ a.minors ++ [a.major])) 0 := recursor_body_in
  obtain ⟨hxs, hmajor⟩ := Local.allIn_append.mp htelescope
  have hrec : a.result.Infers a.recursorDecl.levelParams n Γ _ _ := infers_recursor
  rw [a.recursorDecl_type, Term.pis_append] at hrec
  rw [Scope.pushAll_append] at hbody
  have happ := hrec.apply_terms hxs (.pis hmajor hbody) hget
  rw [Term.pis_cons, Term.pis_nil] at happ
  have h := Infers.app happ (whnf_pi ..) hv hV
  have hconclusion : (a.motive.term.app a.major.term).replace (Replacement.id.put a.major.id v) =
      a.motive.term.app v := by
    have hne : a.motive.id ≠ a.major.id := by
      intro heq
      have hnumber : a.nextFree = a.nextFree + 1 := congrArg Id.number heq
      omega
    simp [Term.replace, Local.term, Replacement.put, Replacement.id, hne]
  rwa [Term.instantiate_close hbody, hconclusion] at h

lemma infers_ctorApp (ho : a.opened[i]? = some o) (hget : ∀ x ∈ a.params ++ o.fields, Γ.get? x.id = some x)
    (hn : ∀ x ∈ a.params, x.id.number < n) :
    ∃ V, a.result.Infers a.recursorDecl.levelParams n Γ (spec.ctorApp a.params i o) V ∧
      V.alphaEq (spec.selfApp a.params) := by
  have hmem := mem_of_getElem? ho
  have hwith := (scoped_of_reachable henv).withType a hb
  have htypeIn := a.ctor_type_in hb hmem
  obtain ⟨c, hc, hacc⟩ := a.exists_ctor hmem
  obtain ⟨rest, fields, Γ', result, hpass, hopen, halpha, rfl⟩ := hacc.opened
  have hctor : a.info.ctors[i]? = some _ := getElem?_map .. ▸ congrArg (Option.map OpenedCtor.ctor) ho
  have h : a.result.Infers a.recursorDecl.levelParams n Γ (.ctor spec.name i c.1 spec.levels) _ :=
    .ctor a.inductive?_result hctor (length_map _).symm fun l hl => a.admitted_levels hl
  have hown : c.2.instantiateLevelParams a.info.levelParams spec.levels = c.2 :=
    instantiateLevelParams_own spec.levelParams c.2
  rw [hown] at h
  have hparams := (a.params_inScope (scoped_of_reachable henv) hb).mono
    ((keeps_insert (d := spec.decl) (fresh_of_checkNames a.names).1).scope_le _ _)
  have hbelow : ∀ x, x ∈ a.params.map Local.id → x.number < next + spec.numParams ∧ x.number < n := by
    intro y hy
    obtain ⟨x, hx, rfl⟩ := mem_map.mp hy
    have hnumber : x.id.number ∈ a.params.map (·.id.number) := mem_map_of_mem hx
    rw [a.params_numbers, mem_range'_1] at hnumber
    exact ⟨hnumber.2, hn x hx⟩
  have hpassed := Infers.passParams hwith (continues_withType a hb henv)
    (htypeIn.widen { free := fun _ (h : False) => h.elim })
    (fun x hx => ⟨mem_map_of_mem hx, (hparams.type_in_pushAll hx).widen (scope_pushAll_le ..)⟩) hbelow
    (fun x hx => hget x (mem_append_left _ hx)) hpass h
  have happ := Infers.openFields (fun x hx => hget _ (mem_append_right _ (mem_map_of_mem hx))) hopen hpassed
  refine ⟨result, ?_, halpha⟩
  simpa only [ctorApp, map_append, apply_append] using happ

lemma infers_ruleResult (ho : a.opened[i]? = some o) (hminor : a.minors[i]? = some minor)
    (hget : ∀ x ∈ (a.ruleContext o).locals, Γ.get? x.id = some x) :
    a.result.Infers a.recursorDecl.levelParams n Γ (a.ruleResult minor o)
      (a.motive.term.app (spec.ctorApp a.params i o)) := by
  have hmem := mem_of_getElem? ho
  have hadmits := (scoped_of_reachable henv).admits_noFree
  obtain ⟨x, hx, htype⟩ := a.minors_getElem? ho
  obtain rfl : x = minor := Option.some.inj (hx.symm.trans hminor)
  have hlocals : ∀ y, y ∈ a.params ++ [a.motive] ++ a.minors ∨ y ∈ o.fields → Γ.get? y.id = some y :=
    fun y hy => hget y (mem_append.mpr hy)
  have hminorTyped : a.result.Infers a.recursorDecl.levelParams n Γ x.term x.type :=
    .free (hlocals x (.inl (mem_append_right _ (mem_of_getElem? hx))))
  rw [htype, pis_append] at hminorTyped
  -- on the fields
  have hfieldsIn : Local.AllIn (noFree.pushAll (a.params ++ [a.motive])) (o.fields ++ a.hypotheses o) :=
    minor_telescope_in (a.fields_in hadmits hb hmem)
  obtain ⟨hfieldsIn, hhyps⟩ := Local.allIn_append.mp hfieldsIn
  have hbody : (a.motive.term.app (spec.ctorApp a.params i o)).In
      (noFree.pushAll (a.params ++ [a.motive] ++ o.fields)) 0 := by
    refine ⟨in_pushAll_term (by simp), in_apply.mpr ⟨?_, fun t ht => ?_⟩⟩
    · exact (noFree.le_pushAll _).ctor _ _ _ trivial
    · obtain ⟨y, hy, rfl⟩ := mem_map.mp ht
      refine in_pushAll_term ?_
      rcases mem_append.mp hy with hy | hy <;> simp [hy]
  rw [Scope.pushAll_append] at hbody
  have hfields := hminorTyped.apply_terms hfieldsIn (.pis hhyps (hbody.widen (Scope.le_pushAll _ _)))
    fun y hy => hlocals y (.inr hy)
  -- on the recursive calls, for the induction hypotheses
  have hcall (y : Local) (hy : y ∈ o.recursiveFields) : a.result.Infers a.recursorDecl.levelParams n Γ
      (a.recursorApp.app y.term) (a.motive.term.app y.term) :=
    infers_recursorApp henv hb (fun z hz => hlocals z (.inl hz))
      (.free (hlocals y (.inr (OpenedCtor.mem_fields_of_recursive hy))))
      (isDefEq_of_alphaEq (a.recursive_alphaEq hmem hy))
  have hcalls : List.Forall₂ (fun h t => a.result.Infers a.recursorDecl.levelParams n Γ t h.type) (a.hypotheses o)
      (o.recursiveFields.map fun y => a.recursorApp.app y.term) := by
    conv_rhs => rw [← zipIdx_map_fst 0 o.recursiveFields]
    rw [hypotheses, InductiveSpec.hypotheses, List.map_map, forall₂_map_left_iff, forall₂_map_right_iff]
    exact forall₂_same.mpr fun p hp => hcall p.1 (fst_mem_of_mem_zipIdx hp)
  have hfresh : ∀ h ∈ a.hypotheses o, h.type.In (noFree.pushAll (a.params ++ [a.motive] ++ o.fields)) 0 ∧
      ¬ (noFree.pushAll (a.params ++ [a.motive] ++ o.fields)).free h.id := by
    intro h hh
    have hnodup := a.minor_nodup hmem
    rw [map_append, nodup_append] at hnodup
    refine ⟨?_, fun hfree => ?_⟩
    · obtain ⟨⟨y, j⟩, hy, rfl⟩ := mem_map.mp hh
      have hy := OpenedCtor.mem_fields_of_recursive (fst_mem_of_mem_zipIdx hy)
      exact ⟨in_pushAll_term (by simp), in_pushAll_term (by simp [hy])⟩
    · rw [Scope.pushAll_free] at hfree
      exact hnodup.2.2 _ (hfree.resolve_left id) _ (mem_map_of_mem hh) rfl
  have h := hfields.apply_constant (by rwa [Scope.pushAll_append] at hfresh) hbody hcalls
  rwa [ruleResult, apply_append]

end

lemma iota?_ctorApp (ho : a.opened[i]? = some o) (hminor : a.minors[i]? = some minor) :
    iota? a.info (a.recursorApp.app (spec.ctorApp a.params i o)) (spec.ctorApp a.params i o) =
      some (a.ruleResult minor o) := by
  have hmem := mem_of_getElem? ho
  have hctor : a.info.ctors[i]? = some o.ctor := by
    show (a.opened.map (·.ctor))[i]? = _
    rw [getElem?_map, ho, Option.map_some]
  have hhead : (spec.ctorApp a.params i o).head = .ctor spec.name i o.ctor.name spec.levels :=
    head_apply _ _
  have hparams : (a.params.map Local.term).length = a.info.numParams := by
    rw [length_map, a.params_length]
    rfl
  have hmajorIndex : ((a.params ++ [a.motive] ++ a.minors).map Local.term).length = majorIndex a.info := by
    simp only [length_map, length_append, length_singleton, a.params_length, a.minors_length, majorIndex, info]
  have hctorArgs : (spec.ctorApp a.params i o).args = a.params.map Local.term ++ o.fields.map Local.term := by
    rw [ctorApp, args_apply, map_append]
    rfl
  have happ : a.recursorApp.app (spec.ctorApp a.params i o) =
      (const spec.recursor (a.recursorDecl.levelParams.map .param)).apply
        ((a.params ++ [a.motive] ++ a.minors).map Local.term ++ [spec.ctorApp a.params i o]) := by
    rw [apply_append]
    rfl
  have hargs : (a.recursorApp.app (spec.ctorApp a.params i o)).args =
      (a.params ++ [a.motive] ++ a.minors).map Local.term ++ [spec.ctorApp a.params i o] := by
    rw [happ, args_apply]
    rfl
  have hminor' : ((a.params ++ [a.motive] ++ a.minors).map Local.term ++ [spec.ctorApp a.params i o])[
      a.info.numParams + 1 + i]? = some minor.term := by
    have hlen : ((a.params ++ [a.motive]).map Local.term).length = a.info.numParams + 1 := by
      rw [map_append, length_append, hparams]
      rfl
    rw [map_append, append_assoc, getElem?_append_right (by omega), hlen, Nat.add_sub_cancel_left,
      getElem?_append_left, getElem?_map, hminor, Option.map_some]
    rw [length_map]
    exact (List.getElem?_eq_some_iff.mp hminor).1
  have hcalls : o.ctor.calls a.recursorApp (o.fields.map Local.term) =
      o.recursiveFields.map fun x => a.recursorApp.app x.term := by
    rw [Constructor.calls, OpenedCtor.recursiveFields, zip_map_left, List.filter_map, List.map_map, List.map_map]
    rfl
  have hlength : (spec.ctorApp a.params i o).args.length = a.info.numParams + o.ctor.numFields := by
    rw [hctorArgs, length_append, hparams, length_map, a.fields_length_eq hmem]
  have hrecursor : (a.recursorApp.app (spec.ctorApp a.params i o)).head.apply
      ((a.params ++ [a.motive] ++ a.minors).map Local.term) = a.recursorApp := by
    rw [happ, head_apply]
    rfl
  rw [iota?_of_ctor hhead hctor, if_pos ⟨rfl, hlength⟩, hargs, hminor', Option.map_some, hctorArgs,
    drop_left' hparams, take_left' hmajorIndex, hrecursor, hcalls,
    drop_of_length_le (Nat.le_of_eq (by rw [length_append, hmajorIndex, length_singleton])), append_nil]
  exact congrArg some (beta_free ..)

lemma ruleContext_below (ho : o ∈ a.opened) :
    ∀ x ∈ (a.ruleContext o).ids, x.number < a.nextFree + 2 + a.opened.length := by
  have hle := a.le_nextFree ho
  have hmotive : a.motive.id.number = a.nextFree := rfl
  intro x hx
  have hnumber : x.number ∈ (a.params ++ [a.motive] ++ a.minors ++ o.fields).map (·.id.number) := by
    obtain ⟨y, hy, rfl⟩ := mem_map.mp hx
    exact mem_map_of_mem hy
  simp only [map_append, a.params_numbers, a.minors_numbers, a.fields_numbers ho, map_cons, map_nil,
    hmotive, mem_append, mem_range'_1, mem_singleton] at hnumber
  omega

lemma rule_in (hconst : ∀ ls, S.const spec.recursor ls) (hctor : ∀ i ls, S.ctor spec.name i ls)
    (hminor : minor ∈ a.minors) (h : ∀ x ∈ (a.ruleContext o).locals, x.term.In S 0) :
    (a.recursorApp.app (spec.ctorApp a.params i o)).In S 0 ∧ (a.ruleResult minor o).In S 0 := by
  have hterms (xs : List Local) (hxs : ∀ x ∈ xs, x ∈ (a.ruleContext o).locals) :
      ∀ t ∈ xs.map term, t.In S 0 := by
    intro t ht
    obtain ⟨x, hx, rfl⟩ := mem_map.mp ht
    exact h x (hxs x hx)
  have hfields : ∀ x ∈ o.fields, x ∈ (a.ruleContext o).locals := fun x hx => mem_append_right _ hx
  have hrecursor : a.recursorApp.In S 0 :=
    in_apply.mpr ⟨hconst _, hterms _ fun x hx => mem_append_left _ hx⟩
  have hctorApp : (spec.ctorApp a.params i o).In S 0 := by
    refine in_apply.mpr ⟨hctor _ _, hterms _ fun x hx => ?_⟩
    rcases mem_append.mp hx with hx | hx
    · simp [ruleContext, hx]
    · exact hfields x hx
  refine ⟨⟨hrecursor, hctorApp⟩, in_apply.mpr ⟨?_, fun t ht => ?_⟩⟩
  · exact h minor (by simp [ruleContext, hminor])
  · rcases mem_append.mp ht with ht | ht
    · exact hterms _ hfields t ht
    · obtain ⟨x, hx, rfl⟩ := mem_map.mp ht
      exact ⟨hrecursor, h x (hfields x (OpenedCtor.mem_fields_of_recursive hx))⟩

variable {a}

lemma contextIn_ruleContext (henv : Reachable env) (hb : spec.Below next) (ho : o ∈ a.opened) :
    a.result.ContextIn a.recursorDecl.levelParams (a.ruleContext o) := by
  have hscoped := scoped_of_reachable henv
  have hfam := familiesDeclared henv
  have hadmits := hscoped.admits_noFree
  have hrecursor : Local.AllIn (a.result.scope a.recursorDecl.levelParams fun _ => False)
      (a.params ++ [a.motive] ++ a.minors ++ [a.major]) :=
    (Local.AllIn.of_pis (recursor_telescope_in (a.params_in hadmits hb) fun o ho => a.fields_in hadmits hb ho)
      recursor_body_in (a.recursor_type_in hadmits hb)).mono ((a.keeps_withInfo hfam hb).scope_le _ _)
  have hparams := (a.params_inScope hscoped hb).mono
    ((keeps_insert (d := spec.decl) (fresh_of_checkNames a.names).1).scope_le _ _)
  have hfields := (a.telescope_inScope (hscoped.withType a hb) hb hparams ho).mono
    ((a.keeps_withType hfam hb).scope_le _ _)
  have hlevels : ∀ p ∈ spec.levelParams, p ∈ a.recursorDecl.levelParams := fun p hp => mem_append_right _ hp
  have hin {xs : List Local} {h : Local} {qs : List Name} (hqs : ∀ p ∈ qs, p ∈ a.recursorDecl.levelParams)
      (hxs : Local.AllIn (a.result.scope qs fun _ => False) xs) (hle : ∀ x ∈ xs, x ∈ (a.ruleContext o).locals)
      (hh : h ∈ xs) : h.type.In (a.result.scope a.recursorDecl.levelParams (· ∈ (a.ruleContext o).ids)) 0 := by
    refine ((hxs.mono (scope_le_params hqs)).type_in_pushAll hh).widen ?_
    rw [Scope.pushAll_eq]
    refine { free := fun y hy => ?_ }
    obtain ⟨z, hz, rfl⟩ := mem_map.mp (hy.resolve_left id)
    exact mem_map_of_mem (hle z hz)
  intro x h hget
  have hmem : h ∈ (a.ruleContext o).locals := mem_reverse.mp (mem_of_find?_eq_some hget)
  rcases mem_append.mp hmem with hmem | hmem
  · refine hin (fun p hp => hp) (Local.allIn_append.mp hrecursor).1 (fun y hy => ?_) hmem
    exact mem_append_left _ hy
  · refine hin hlevels hfields (fun y hy => ?_) (mem_append_right _ hmem)
    simp only [ruleContext, mem_append] at hy ⊢
    tauto

end InductiveSpec.Accepted

/-- The hypotheses under other identities. -/
def Context.relabel (ρ : Id → Id) (Γ : Context) : Context :=
  ⟨Γ.locals.map fun x => ⟨ρ x.id, x.name, x.type.relabel ρ id⟩⟩

lemma Context.ids_relabel (ρ : Id → Id) (Γ : Context) : (Γ.relabel ρ).ids = Γ.ids.map ρ := by
  simp [Context.relabel, ids]

lemma Env.contextRenamed_relabel {ρ : Id → Id} (hΓ : Γ.ids.Nodup) (hρ : ∀ x ∈ Γ.ids, ∀ y ∈ Γ.ids, ρ x = ρ y → x = y) :
    ContextRenamed ρ Γ (Γ.relabel ρ) := by
  intro x h hget
  have hmem : h ∈ Γ.locals := mem_reverse.mp (mem_of_find?_eq_some hget)
  obtain rfl : h.id = x := by simpa using find?_some hget
  have hnodup : (Γ.relabel ρ).ids.Nodup := by
    rw [ids_relabel]
    exact hΓ.map_on hρ
  exact ⟨_, get?_of_mem hnodup (mem_map_of_mem hmem), rfl⟩

namespace Env

open Fueled InductiveSpec

/-- The recursor of an inductive type and its rule agree. The binders of its type are the parameters, the motive, the
minor premises and the scrutinee. With all but the last and the fields of a constructor as hypotheses, under whatever
identities `ρ`, the recursor on the constructor reduces to its minor premise on the fields and on the recursive calls,
and with enough fuel the checker finds for both the type that the motive gives. -/
theorem recursor_rule_typed {env env' : Env} (henv : Reachable env) {fuel next : Nat} {spec : InductiveSpec}
    (hb : spec.Below next) (h : (env.addInductive fuel next spec).Yields env') :
    ∃ a : Accepted env fuel next spec, env' = a.result ∧
      env'.get? spec.recursor = some a.recursorDecl ∧ env'.recursorOf? spec.recursor = some a.info ∧
      a.recursorDecl.type =
        (a.motive.term.app a.major.term).pis (a.params ++ [a.motive] ++ a.minors ++ [a.major]) ∧
      ∀ i < spec.ctors.length, ∃ o minor, a.opened[i]? = some o ∧ a.minors[i]? = some minor ∧
        iota? a.info (a.recursorApp.app (spec.ctorApp a.params i o)) (spec.ctorApp a.params i o) =
          some (a.ruleResult minor o) ∧
        ∀ ρ : Id → Id, (∀ x ∈ (a.ruleContext o).ids, ∀ y ∈ (a.ruleContext o).ids, ρ x = ρ y → x = y) →
          ∀ next', (∀ x ∈ (a.ruleContext o).ids, (ρ x).number < next') →
          ∃ enough, ∀ fuel' ≥ enough, ∀ m ∈ [a.recursorApp.app (spec.ctorApp a.params i o), a.ruleResult minor o],
            (env'.infer a.recursorDecl.levelParams fuel' next' ((a.ruleContext o).relabel ρ) (m.relabel ρ id)).Yields
              ((a.motive.term.app (spec.ctorApp a.params i o)).relabel ρ id) := by
  obtain ⟨a, rfl⟩ := yields_addInductive h
  have hrecursor : a.result.recursorOf? spec.recursor = some a.info :=
    recursorOf?_eq_some_iff.mpr ⟨_, _, a.get?_recursor, rfl, a.inductive?_result⟩
  refine ⟨a, rfl, a.get?_recursor, hrecursor, a.recursorDecl_type, fun i hi => ?_⟩
  obtain ⟨o, ho⟩ : ∃ o, a.opened[i]? = some o := by
    rw [a.ctors.length_eq] at hi
    exact ⟨_, List.getElem?_eq_getElem hi⟩
  have hmem := List.mem_of_getElem? ho
  obtain ⟨minor, hminor, _⟩ := a.minors_getElem? ho
  refine ⟨o, minor, ho, hminor, a.iota?_ctorApp ho hminor, fun ρ hρ next' hnext' => ?_⟩
  have hget : ∀ x ∈ (a.ruleContext o).locals, (a.ruleContext o).get? x.id = some x :=
    fun x hx => a.get?_ruleContext hmem hx
  have hn := a.ruleContext_below hmem
  -- both terms, under the identities that the declaration was checked with
  obtain ⟨V, hctor, hV⟩ := Accepted.infers_ctorApp henv hb ho
    (fun x hx => hget x (by simp only [Accepted.ruleContext, List.mem_append] at hx ⊢; tauto))
    fun x hx => hn x.id (List.mem_map_of_mem (by simp [Accepted.ruleContext, hx]))
  have hleft := Accepted.infers_recursorApp henv hb (fun x hx => hget x (List.mem_append_left _ hx)) hctor
    (isDefEq_of_alphaEq hV)
  have hright := Accepted.infers_ruleResult henv hb ho hminor hget (n := a.nextFree + 2 + a.opened.length)
  -- and under all others
  have hmove {m : Term} (hm : a.result.Infers a.recursorDecl.levelParams (a.nextFree + 2 + a.opened.length)
      (a.ruleContext o) m (a.motive.term.app (spec.ctorApp a.params i o)))
      (hbelow : m.In { free := fun x => x.number < a.nextFree + 2 + a.opened.length } 0) :
      ∃ enough, ∀ fuel' ≥ enough, (a.result.infer a.recursorDecl.levelParams fuel' next'
        ((a.ruleContext o).relabel ρ) (m.relabel ρ id)).Yields
          ((a.motive.term.app (spec.ctorApp a.params i o)).relabel ρ id) := by
    have hscoped := scoped_of_reachable (henv.tail (.family hb h))
    have hrenaming : Renaming (a.result.scope a.recursorDecl.levelParams (· ∈ (a.ruleContext o).ids))
        (a.nextFree + 2 + a.opened.length) next' ρ := ⟨fun x y hx hy => hρ x hx y hy, hn, hnext'⟩
    exact (hm.rename hscoped (Accepted.contextIn_ruleContext henv hb hmem) hbelow hrenaming
      (contextRenamed_relabel (a.ruleContext_nodup hmem) hρ)).exists_fuel
  have hterm (x : Local) (hx : x ∈ (a.ruleContext o).locals) :
      x.term.In { free := fun x => x.number < a.nextFree + 2 + a.opened.length } 0 := hn x.id (List.mem_map_of_mem hx)
  have hin := a.rule_in (i := i) (fun _ => trivial) (fun _ _ => trivial) (List.mem_of_getElem? hminor) hterm
  obtain ⟨enough₁, h₁⟩ := hmove hleft hin.1
  obtain ⟨enough₂, h₂⟩ := hmove hright hin.2
  refine ⟨max enough₁ enough₂, fun fuel' hfuel => ?_⟩
  simp only [List.mem_cons, List.not_mem_nil, or_false, forall_eq_or_imp, forall_eq]
  exact ⟨h₁ fuel' (by omega), h₂ fuel' (by omega)⟩

/-- The successor of a number, which has a recursive field. -/
theorem successor_rule_typed : ∃ (env : Env) (a : Accepted {} 20 0 numbers) (o : OpenedCtor) (minor : Local),
    numbers.Below 0 ∧ (({} : Env).addInductive 20 0 numbers).Yields env ∧ a.opened[1]? = some o ∧
    a.minors[1]? = some minor ∧ ∀ ρ : Id → Id, Function.Injective ρ →
      ∀ next, (∀ x ∈ (a.ruleContext o).ids, (ρ x).number < next) → ∃ enough, ∀ fuel ≥ enough,
        (env.infer a.recursorDecl.levelParams fuel next ((a.ruleContext o).relabel ρ)
          ((a.recursorApp.app (numbers.ctorApp a.params 1 o)).relabel ρ id)).Yields
            ((a.motive.term.app (numbers.ctorApp a.params 1 o)).relabel ρ id) ∧
        (env.infer a.recursorDecl.levelParams fuel next ((a.ruleContext o).relabel ρ)
          ((a.ruleResult minor o).relabel ρ id)).Yields
            ((a.motive.term.app (numbers.ctorApp a.params 1 o)).relabel ρ id) := by
  have hadd : ∃ env, (({} : Env).addInductive 20 0 numbers).Yields env := ⟨_, rfl⟩
  obtain ⟨env, hadd⟩ := hadd
  obtain ⟨a, _, _, _, _, hrule⟩ := recursor_rule_typed .refl numbers_below hadd
  obtain ⟨o, minor, ho, hminor, _, htyped⟩ := hrule 1 (by decide)
  refine ⟨env, a, o, minor, numbers_below, hadd, ho, hminor, fun ρ hρ next hnext => ?_⟩
  obtain ⟨enough, h⟩ := htyped ρ (fun _ _ _ _ heq => hρ heq) next hnext
  exact ⟨enough, fun fuel hfuel => ⟨h fuel hfuel _ (by simp), h fuel hfuel _ (by simp)⟩⟩

end Env

end ProofAssistant
