import ProofAssistant.Proofs.InductiveTyping
import ProofAssistant.Proofs.TypedInference

/-!
# Accepted inductive declarations are well typed

The checks of an inductive declaration take parameters and fields off a type, step by step. What they take off is a
typed telescope, and the type is convertible to the product over it. So the types of the constructors are products
(`InductiveSpec.Accepted.product`).
-/

namespace ProofAssistant

open Context List Term

variable {xs params : List Local} {c : Name × Term} {o : OpenedCtor} {y : Name} {i : Bool}

open Fueled

namespace Env

open InductiveSpec

variable {env : Env} {ps : List Name} {Γ : Context}

/-! ## Typed telescopes -/

lemma Conv.pis (henv : env.Admits noFree) {m m' : Term} (h : env.Conv m m') (xs : List Local) :
    env.Conv (m.pis xs) (m'.pis xs) := by
  induction xs with
  | nil => rwa [pis_nil, pis_nil]
  | cons x xs ih =>
    rw [pis_cons, pis_cons, close_eq_replace, close_eq_replace]
    exact .pi (.refl _) (ih.replace henv _)

/-- A product whose body is convertible, when it is opened, to a product over further hypotheses. -/
lemma Conv.pis_cons (henv : env.Admits noFree) {S S' : Scope} {x : Local}
    {t b m : Term} {k : Nat} (hb : b.In S k) (hx : ¬ S.free x.id) (hm : (m.pis xs).In S' 0)
    (ht : env.Conv t x.type) (hbody : env.Conv (b.instantiate x.term) (m.pis xs)) :
    env.Conv (.pi y i t b) (m.pis (x :: xs)) := by
  have habs := hbody.replace henv (.abstracted x.id)
  rw [Local.term, Term.replace_abstracted hb hx, ← Term.close_eq_abstracted hm] at habs
  rw [Term.pis_cons]
  exact .pi ht habs

namespace TelescopeTyped

lemma context (henv : env.Scoped) (hΓ : env.ContextTyped ps Γ)
    (h : env.TelescopeTyped ps Γ xs) : env.ContextTyped ps ⟨Γ.locals ++ xs⟩ := by
  induction xs generalizing Γ with
  | nil => rwa [append_nil]
  | cons x xs ih =>
    obtain ⟨htype, hx, h⟩ := h
    have hrest := ih (hΓ.add henv hx htype) h
    rwa [locals_add, append_assoc] at hrest

lemma append {ys : List Local} (h : env.TelescopeTyped ps Γ xs)
    (h' : env.TelescopeTyped ps ⟨Γ.locals ++ xs⟩ ys) : env.TelescopeTyped ps Γ (xs ++ ys) := by
  induction xs generalizing Γ with
  | nil => rwa [append_nil] at h'
  | cons x xs ih =>
    obtain ⟨htype, hx, h⟩ := h
    refine ⟨htype, hx, ih h ?_⟩
    rwa [locals_add, append_assoc]

lemma extend {env' : Env} (hext : env.Extends env') (h : env.TelescopeTyped ps Γ xs) :
    env'.TelescopeTyped ps Γ xs := by
  induction xs generalizing Γ with
  | nil => trivial
  | cons x xs ih =>
    obtain ⟨⟨l, hl⟩, hx, h⟩ := h
    exact ⟨⟨l, hl.extend hext⟩, hx, ih h⟩

end TelescopeTyped

lemma scope_add (env : Env) (ps : List Name) (Γ : Context) (x : Local) :
    (env.scope ps (· ∈ Γ.ids)).push x.id = env.scope ps (· ∈ (Γ.add x).ids) := by
  have hids : (fun y => y ∈ Γ.ids ∨ y = x.id) = (· ∈ (Γ.add x).ids) := by
    simp
  rw [← hids]
  rfl

/-- The parts of a type that reduces to a product: its domain, and its body for a hypothesis of the domain. -/
lemma IsType.opened (henv : env.WellTyped) (hiota : env.IotaTyped) (hΓ : env.ContextTyped ps Γ) {T : Term}
    {t b : Term} (hT : env.IsType ps Γ [] T) (hsteps : env.Steps T (.pi y i t b)) :
    env.IsType ps Γ [] t ∧ ∀ x : Local, x.id ∉ Γ.ids → env.Conv x.type t → env.IsType ps Γ [] x.type →
      env.IsType ps (Γ.add x) [] (b.instantiate x.term) := by
  have hΔ : env.BindersTyped ps Γ [] := trivial
  obtain ⟨l, hl⟩ := hT
  obtain ⟨l₁, l₂, ht, hb, _⟩ := (hl.steps henv hiota hΓ hΔ hsteps).pi_inv
  refine ⟨⟨l₁, ht⟩, fun x hx hconv htype => ⟨l₂, ?_⟩⟩
  have hle : ∀ y h, Γ.get? y = some h → (Γ.add x).get? y = some h := fun _ _ => get?_add_of_fresh hx
  have hΓ' := hΓ.add henv.inScope hx htype
  have hterm : env.HasType True ps (Γ.add x) [] x.term x.type := .free (by simp [get?_add])
  have hdom := ht.weaken henv.inScope hΓ.inScope hle
  exact (hb.weaken henv.inScope hΓ.inScope hle).instantiate henv.inScope hΓ'.inScope
    (hterm.conv_type hconv ⟨l₁, hdom⟩)

end Env

/-! ## The checks -/

namespace InductiveSpec

open Env

variable {env : Env} {spec : InductiveSpec} {fuel next : Nat} {ps : List Name} {Γ : Context}

/-- The parameters that are taken off a type are a typed telescope, and the type is the product over it. -/
lemma openParams_typed (henv : env.WellTyped) (hiota : env.IotaTyped) {count : Nat} {target rest : Term}
    (hΓ : env.ContextTyped ps Γ) (hnext : ∀ y ∈ Γ.ids, y.number < next) (htarget : env.IsType ps Γ [] target)
    (h : (spec.openParams env fuel count next target).Yields (params, rest)) :
    env.TelescopeTyped ps Γ params ∧ env.IsType ps ⟨Γ.locals ++ params⟩ [] rest ∧
      env.Conv target (rest.pis params) := by
  have hscoped := henv.inScope
  induction count generalizing Γ next target params with
  | zero =>
    obtain ⟨rfl, rfl⟩ := h
    rw [append_nil, pis_nil]
    exact ⟨trivial, htarget, .refl _⟩
  | succ count ih =>
    obtain ⟨x, i, t, b, params', hwhnf, hrec, rfl⟩ := openParams_succ h
    have hsteps := steps_of_whnf hwhnf
    have hfresh : (Local.new next x t).id ∉ Γ.ids := fun hmem => Nat.lt_irrefl _ (hnext _ hmem)
    obtain ⟨ht, hopened⟩ := htarget.opened henv hiota hΓ hsteps
    have hb := hopened (.new next x t) hfresh (.refl t) ht
    have hΓ' := hΓ.add hscoped hfresh ht
    obtain ⟨hparams, hrest, hconv⟩ := ih hΓ' (below_add hnext rfl) hb hrec
    obtain ⟨_, hpis⟩ := IsType.pis hscoped hΓ'.inScope hparams hrest
    obtain ⟨_, hl⟩ := htarget
    have hΔ : env.BindersTyped ps Γ [] := trivial
    have hpi := hl.steps henv hiota hΓ hΔ hsteps
    rw [locals_add, append_assoc] at hrest
    exact ⟨⟨ht, hfresh, hparams⟩, hrest, (Conv.of_steps hsteps).trans
      (.pis_cons henv.admits_noFree hpi.in_scope.2 hfresh hpis.in_scope (.refl t) hconv)⟩

/-- Where the parameters of the type pass for those of a constructor, the type of the constructor is
convertible to the product over them. -/
lemma passParams_typed (henv : env.WellTyped) (hiota : env.IotaTyped) {Γ₀ : Context}
    {type rest : Term} (hΓ : env.ContextTyped ps Γ)
    (hnext : ∀ y ∈ Γ.ids ++ params.map Local.id, y.number < next) (hparams : env.TelescopeTyped ps Γ params)
    (hparamsIn : Local.AllIn (env.scope ps (· ∈ Γ.ids)) params) (htype : env.IsType ps Γ [] type)
    (htypeIn : type.In (env.scope ps (· ∈ Γ.ids)) 0)
    (h : (passParams env spec fuel next Γ₀ c params type).Yields rest) :
    env.IsType ps ⟨Γ.locals ++ params⟩ [] rest ∧ env.Conv type (rest.pis params) := by
  have hscoped := henv.inScope
  induction params generalizing Γ type with
  | nil =>
    obtain rfl := yields_pure.mp h
    rw [append_nil, pis_nil]
    exact ⟨htype, .refl _⟩
  | cons x params ih =>
    obtain ⟨y, i, t, b, hwhnf, htest, hrec⟩ := passParams_cons h
    obtain ⟨hxtype, hfresh, hparams⟩ := hparams
    obtain ⟨hxIn, hparamsIn⟩ := hparamsIn
    have hsteps := steps_of_whnf hwhnf
    have hpiIn := hsteps.in_scope (hscoped.admits_scope ps _) htypeIn
    have hle : (env.scope ps (· ∈ Γ.ids)).Le (env.arityScope next) :=
      env.scope_le_arityScope ps fun z hz => hnext z (mem_append_left _ hz)
    have hconv : env.Conv t x.type := (testSound hscoped fuel).1 next t x.type 0 0
      (hpiIn.1.widen hle) (hxIn.widen hle) htest
    -- The rest is checked with the parameter as a hypothesis.
    have hb := (htype.opened henv hiota hΓ hsteps).2 x hfresh hconv.symm hxtype
    have hbIn : (b.instantiate x.term).In (env.scope ps (· ∈ (Γ.add x).ids)) 0 := by
      rw [← scope_add]
      exact (hpiIn.2.widen (Scope.le_push _ _)).instantiate (.inr rfl)
    rw [scope_add] at hparamsIn
    obtain ⟨hrest, hrestConv⟩ := ih (hΓ.add hscoped hfresh hxtype) (by simpa using hnext) hparams hparamsIn hb
      hbIn hrec
    obtain ⟨l, hpis⟩ := IsType.pis hscoped (hΓ.add hscoped hfresh hxtype).inScope hparams hrest
    rw [locals_add, append_assoc] at hrest
    exact ⟨hrest, (Conv.of_steps hsteps).trans
      (.pis_cons henv.admits_noFree hpiIn.2 hfresh hpis.in_scope hconv hrestConv)⟩

/-- The fields that are taken off a type are a typed telescope, and the type is the product over it. -/
lemma openFields_typed (henv : env.WellTyped) (hiota : env.IotaTyped) {sort : Level} {selfApp : Term} {c : Name}
    {Γ' : Context} {type rest : Term} {fields : List (Local × Bool)} (hΓ : env.ContextTyped ps Γ)
    (hnext : ∀ y ∈ Γ.ids, y.number < next) (htype : env.IsType ps Γ [] type)
    (h : (openFields env spec sort selfApp c fuel next Γ type).Yields (fields, Γ', rest)) :
    env.TelescopeTyped ps Γ (fields.map Prod.fst) ∧ env.IsType ps ⟨Γ.locals ++ fields.map Prod.fst⟩ [] rest ∧
      env.Conv type (rest.pis (fields.map Prod.fst)) := by
  have hscoped := henv.inScope
  induction fuel generalizing next Γ type fields with
  | zero => simp [openFields] at h
  | succ fuel ih =>
    rcases openFields_cases h with ⟨x, i, t, b, rfl⟩ | ⟨rfl, rfl⟩
    · obtain ⟨recursive, fields', _, _, hrec, rfl⟩ := openFields_pi h
      have hfresh : (Local.new next x t).id ∉ Γ.ids := fun hmem => Nat.lt_irrefl _ (hnext _ hmem)
      obtain ⟨ht, hopened⟩ := htype.opened henv hiota hΓ (.refl _)
      have hb := hopened (.new next x t) hfresh (.refl t) ht
      have hΓ' := hΓ.add hscoped hfresh ht
      obtain ⟨hfields, hrest, hconv⟩ := ih hΓ' (below_add hnext rfl) hb hrec
      obtain ⟨_, hpis⟩ := IsType.pis hscoped hΓ'.inScope hfields hrest
      obtain ⟨_, hpi⟩ := htype
      rw [locals_add, append_assoc] at hrest
      exact ⟨⟨ht, hfresh, hfields⟩, hrest,
        .pis_cons henv.admits_noFree hpi.in_scope.2 hfresh hpis.in_scope (.refl t) hconv⟩
    · rw [map_nil, append_nil, pis_nil]
      exact ⟨trivial, htype, .refl _⟩

/-! ## The types of an accepted declaration -/

namespace Accepted

variable (a : Accepted env fuel next spec)

/-- The parameters are a typed telescope, and the type of the type is the product over it. -/
lemma type_product (henv : env.WellTyped) (hiota : env.IotaTyped) (hb : spec.Below next) :
    env.TelescopeTyped spec.levelParams {} a.params ∧ env.IsType spec.levelParams ⟨a.params⟩ [] a.target ∧
      env.Conv spec.type (a.target.pis a.params) := by
  obtain ⟨l, hl⟩ := a.typed
  have htype : env.HasType True spec.levelParams {} [] spec.type (.sort l) :=
    (infersSort_of_inferSort hl).hasType ⟨henv.inScope, fun _ => henv, fun _ => hiota⟩ (.nil next) hb.1
  exact openParams_typed henv hiota (fun _ _ hget => nomatch hget) (fun _ hy => nomatch hy) ⟨l, htype⟩
    a.paramsOpened

lemma params_typed (henv : env.WellTyped) (hiota : env.IotaTyped) (hb : spec.Below next) :
    env.TelescopeTyped spec.levelParams {} a.params :=
  (a.type_product henv hiota hb).1

lemma params_inScope (henv : env.Scoped) (hb : spec.Below next) :
    Local.AllIn (env.scope spec.levelParams fun _ => False) a.params :=
  openParams_in (henv.admits_scope _ _) (a.type_in hb) a.paramsOpened

lemma ctor_below (hb : spec.Below next) (hc : c ∈ spec.ctors) : c.2.Below (next + spec.numParams) :=
  (hb.2 c hc).widen { free := fun _ hx => Nat.lt_of_lt_of_le hx (Nat.le_add_right _ _) }

lemma ctor_isType (henv : (env.insert spec.decl).WellTyped) (hiota : (env.insert spec.decl).IotaTyped)
    (hb : spec.Below next) (ho : o ∈ a.opened) : (env.insert spec.decl).IsType spec.levelParams {} [] o.ctor.type := by
  obtain ⟨c, hc, hacc⟩ := a.exists_ctor ho
  obtain ⟨l, hl⟩ := hacc.typed
  obtain ⟨_, _, _, _, _, _, _, rfl⟩ := hacc.opened
  exact ⟨l, (infersSort_of_inferSort hl).hasType ⟨henv.inScope, fun _ => henv, fun _ => hiota⟩ (.nil _)
    (ctor_below hb hc)⟩

lemma telescope_inScope (henv : (env.insert spec.decl).Scoped) (hb : spec.Below next)
    (hparams : Local.AllIn ((env.insert spec.decl).scope spec.levelParams fun _ => False) a.params)
    (ho : o ∈ a.opened) :
    Local.AllIn ((env.insert spec.decl).scope spec.levelParams fun _ => False) (a.params ++ o.fields) := by
  have htypeIn := a.ctor_type_in hb ho
  obtain ⟨c, hc, hacc⟩ := a.exists_ctor ho
  obtain ⟨rest, fields, Γ, result, hpass, hopen, _, rfl⟩ := hacc.opened
  have hrest := passParams_in ((henv.admits_scope _ _).pushAll a.params) (fun x hx => in_pushAll_term hx)
    (htypeIn.widen (Scope.le_pushAll _ _)) hpass
  exact Local.allIn_append.mpr ⟨hparams, (openFields_in hrest hopen).1⟩

/-- The type of a constructor is convertible to a product over the parameters and its fields, whose result is
the type itself. -/
lemma product (henv : (env.insert spec.decl).WellTyped) (hiota : (env.insert spec.decl).IotaTyped)
    (hb : spec.Below next) (hparams : (env.insert spec.decl).TelescopeTyped spec.levelParams {} a.params)
    (hparamsIn : Local.AllIn ((env.insert spec.decl).scope spec.levelParams fun _ => False) a.params)
    (ho : o ∈ a.opened) : ∃ result, result.In (noFree.pushAll (a.params ++ o.fields)) 0 ∧
      (env.insert spec.decl).IsType spec.levelParams {} [] (result.pis (a.params ++ o.fields)) ∧
      (env.insert spec.decl).Conv o.ctor.type (result.pis (a.params ++ o.fields)) ∧
      (env.insert spec.decl).Conv result (spec.selfApp a.params) := by
  have hscoped := henv.inScope
  have htype := a.ctor_isType henv hiota hb ho
  have htypeIn := a.ctor_type_in hb ho
  obtain ⟨c, hc, hacc⟩ := a.exists_ctor ho
  obtain ⟨rest, fields, Γ, result, hpass, hopen, halpha, rfl⟩ := hacc.opened
  have hnext : ∀ y ∈ a.params.map Local.id, y.number < next + spec.numParams := by
    intro y hy
    obtain ⟨x, hx, rfl⟩ := mem_map.mp hy
    have hmem : x.id.number ∈ a.params.map (·.id.number) := mem_map_of_mem hx
    rw [a.params_numbers, mem_range'_1] at hmem
    exact hmem.2
  have hempty : (env.insert spec.decl).ContextTyped spec.levelParams {} := fun _ _ hget => nomatch hget
  have hnone : (fun _ : Id => False) = (· ∈ (ids {})) := by
    simp [ids]
  rw [hnone] at htypeIn hparamsIn
  obtain ⟨hrest, hconv⟩ := passParams_typed henv hiota hempty hnext hparams hparamsIn htype htypeIn hpass
  have hΓ := hparams.context hscoped hempty
  obtain ⟨hfields, hresult, hconv'⟩ := openFields_typed henv hiota hΓ hnext hrest hopen
  refine ⟨result, ?_, IsType.pis hscoped empty_scoped (hparams.append hfields) hresult, ?_, .of_alphaEq halpha⟩
  · obtain ⟨_, hl⟩ := hresult
    refine Term.In.widen (freeOnly_noFree.pushAll _) (hl.in_scope.widen ?_)
    exact { free := fun y hy => (Scope.pushAll_free _ _ _).mpr (.inr hy) }
  · rw [pis_append]
    exact hconv.trans (hconv'.pis henv.admits_noFree a.params)

end Accepted

end InductiveSpec

end ProofAssistant
