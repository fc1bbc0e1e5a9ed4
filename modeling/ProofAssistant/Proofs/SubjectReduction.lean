import ProofAssistant.Proofs.Injectivity
import ProofAssistant.Proofs.Judgement

/-!
# Types are kept by reduction

In an environment whose declarations are well typed (`Env.WellTyped`) and under the strict conversion rule:
-/

namespace ProofAssistant

open Term

variable {x c family n : Name} {ps' : List Name}

namespace Env

variable {i : Nat} {ls : List Level} {m T m' : Term}

open InductiveSpec

variable {env : Env} {strict : Prop} {ps : List Name} {Γ : Context} {Δ : List Term}

/-! ## Inversion

The type of a term is the one that the rule for its shape gives, up to conversion. -/

namespace HasType

variable {T : Term}

lemma var_inv (h : env.HasType strict ps Γ Δ (.var i) T) : ∃ A, Bound Δ i A ∧ env.Conv A T := by
  generalize hm : Term.var i = m at h
  induction h with
  | var hb =>
    obtain rfl := Term.var.inj hm
    exact ⟨_, hb, .refl _⟩
  | conv _ hconv _ ih _ =>
    obtain ⟨A, hb, hA⟩ := ih hm
    exact ⟨A, hb, hA.trans hconv⟩
  | _ => nomatch hm

lemma free_inv {x : Id} (h : env.HasType strict ps Γ Δ (.free x) T) : ∃ y, Γ.get? x = some y ∧ env.Conv y.type T := by
  generalize hm : Term.free x = m at h
  induction h with
  | free hget =>
    obtain rfl := Term.free.inj hm
    exact ⟨_, hget, .refl _⟩
  | conv _ hconv _ ih _ =>
    obtain ⟨y, hget, hy⟩ := ih hm
    exact ⟨y, hget, hy.trans hconv⟩
  | _ => nomatch hm

lemma sort_inv {l : Level} (h : env.HasType strict ps Γ Δ (.sort l) T) :
    l.Admitted ps ∧ env.Conv (.sort (.succ l)) T := by
  generalize hm : Term.sort l = m at h
  induction h with
  | sort hl =>
    obtain rfl := Term.sort.inj hm
    exact ⟨hl, .refl _⟩
  | conv _ hconv _ ih _ =>
    obtain ⟨hl, hT⟩ := ih hm
    exact ⟨hl, hT.trans hconv⟩
  | _ => nomatch hm

lemma const_inv (h : env.HasType strict ps Γ Δ (.const c ls) T) :
    ∃ d ∈ env.decls, d.name = c ∧ (∀ t i, d.kind ≠ .constructor t i) ∧
      d.levelParams.length = ls.length ∧ (∀ l ∈ ls, l.Admitted ps) ∧
      env.Conv (d.type.instantiateLevelParams d.levelParams ls) T := by
  generalize hm : Term.const c ls = m at h
  induction h with
  | const hd hc hkind hlen hls =>
    obtain ⟨rfl, rfl⟩ := Term.const.inj hm
    exact ⟨_, hd, hc, hkind, hlen, hls, .refl _⟩
  | conv _ hconv _ ih _ =>
    obtain ⟨d, hd, hc, hkind, hlen, hls, hT⟩ := ih hm
    exact ⟨d, hd, hc, hkind, hlen, hls, hT.trans hconv⟩
  | _ => nomatch hm

lemma ctor_inv (h : env.HasType strict ps Γ Δ (.ctor family i n ls) T) :
    ∃ t k, env.inductive? family = some t ∧ t.ctors[i]? = some k ∧ t.levelParams.length = ls.length ∧
      (∀ l ∈ ls, l.Admitted ps) ∧ env.Conv (k.type.instantiateLevelParams t.levelParams ls) T := by
  generalize hm : Term.ctor family i n ls = m at h
  induction h with
  | ctor ht hk hlen hls =>
    obtain ⟨rfl, rfl, rfl, rfl⟩ := Term.ctor.inj hm
    exact ⟨_, _, ht, hk, hlen, hls, .refl _⟩
  | conv _ hconv _ ih _ =>
    obtain ⟨t, k, ht, hk, hlen, hls, hT⟩ := ih hm
    exact ⟨t, k, ht, hk, hlen, hls, hT.trans hconv⟩
  | _ => nomatch hm

lemma app_inv {f a : Term} (h : env.HasType strict ps Γ Δ (.app f a) T) :
    ∃ x i t b, env.HasType strict ps Γ Δ f (.pi x i t b) ∧ env.HasType strict ps Γ Δ a t ∧
      env.Conv (b.instantiate a) T := by
  generalize hm : Term.app f a = m at h
  induction h with
  | app hf ha =>
    obtain ⟨rfl, rfl⟩ := Term.app.inj hm
    exact ⟨_, _, _, _, hf, ha, .refl _⟩
  | conv _ hconv _ ih _ =>
    obtain ⟨x, i, t, b, hf, ha, hT⟩ := ih hm
    exact ⟨x, i, t, b, hf, ha, hT.trans hconv⟩
  | _ => nomatch hm

lemma lam_inv {t b : Term} (h : env.HasType strict ps Γ Δ (.lam x t b) T) :
    ∃ l B, env.HasType strict ps Γ Δ t (.sort l) ∧ env.HasType strict ps Γ (t :: Δ) b B ∧
      env.Conv (.pi x false t B) T := by
  generalize hm : Term.lam x t b = m at h
  induction h with
  | lam ht hb =>
    obtain ⟨rfl, rfl, rfl⟩ := Term.lam.inj hm
    exact ⟨_, _, ht, hb, .refl _⟩
  | conv _ hconv _ ih _ =>
    obtain ⟨l, B, ht, hb, hT⟩ := ih hm
    exact ⟨l, B, ht, hb, hT.trans hconv⟩
  | _ => nomatch hm

lemma pi_inv {i : Bool} {t b : Term} (h : env.HasType strict ps Γ Δ (.pi x i t b) T) :
    ∃ l l', env.HasType strict ps Γ Δ t (.sort l) ∧ env.HasType strict ps Γ (t :: Δ) b (.sort l') ∧
      env.Conv (.sort (.imax l l')) T := by
  generalize hm : Term.pi x i t b = m at h
  induction h with
  | pi ht hb =>
    obtain ⟨rfl, rfl, rfl, rfl⟩ := Term.pi.inj hm
    exact ⟨_, _, ht, hb, .refl _⟩
  | conv _ hconv _ ih _ =>
    obtain ⟨l, l', ht, hb, hT⟩ := ih hm
    exact ⟨l, l', ht, hb, hT.trans hconv⟩
  | _ => nomatch hm

end HasType

/-! ## Well-typed environments -/

/-- The term is a type. -/
def IsType (env : Env) (ps : List Name) (Γ : Context) (Δ : List Term) (T : Term) : Prop :=
  ∃ l, env.HasType True ps Γ Δ T (.sort l)

/-- Declared types are types, the values of definitions have the types declared, and a name is declared
once, constructors apart. -/
structure WellTyped (env : Env) : Prop where
  inScope : env.Scoped
  unique : ∀ d ∈ env.decls, ∀ d' ∈ env.decls, (∀ t i, d.kind ≠ .constructor t i) →
    (∀ t i, d'.kind ≠ .constructor t i) → d.name = d'.name → d = d'
  types : ∀ d ∈ env.decls, (∀ t i, d.kind ≠ .constructor t i) → env.IsType d.levelParams {} [] d.type
  values : ∀ d ∈ env.decls, ∀ v n, d.kind = .definition v n →
    env.HasType True d.levelParams {} [] v d.type
  ctors : ∀ n t, env.inductive? n = some t → ∀ k ∈ t.ctors, env.IsType t.levelParams {} [] k.type

/-- The hypotheses of a context have types. -/
def ContextTyped (env : Env) (ps : List Name) (Γ : Context) : Prop :=
  ∀ x h, Γ.get? x = some h → env.IsType ps Γ [] h.type

/-- Binders have types. -/
def BindersTyped (env : Env) (ps : List Name) (Γ : Context) : List Term → Prop
  | [] => True
  | A :: Δ => env.IsType ps Γ Δ A ∧ BindersTyped env ps Γ Δ

lemma ContextTyped.inScope (h : env.ContextTyped ps Γ) : Γ.Scoped := by
  intro x y hget
  obtain ⟨l, hl⟩ := h x y hget
  exact hl.in_scope

lemma empty_scoped : Context.Scoped {} := fun _ _ h => nomatch h

lemma HasType.instantiateLevelParams (henv : env.Scoped) (h : env.HasType strict ps {} [] m T)
    (hlen : ps.length = ls.length) (hls : ∀ l ∈ ls, l.Admitted ps') (Γ : Context) (Δ : List Term) :
    env.HasType strict ps' Γ Δ (m.instantiateLevelParams ps ls) (T.instantiateLevelParams ps ls) := by
  rw [instantiateLevelParams_eq_mapLevels, instantiateLevelParams_eq_mapLevels]
  have hrenames : Renames id [] Δ := fun _ _ hb => nomatch hb
  have hle : ∀ x y, Context.get? {} x = some y → Γ.get? x = some y := fun _ _ hx => nomatch hx
  have h' := (h.mapLevels henv hlen hls).rename henv empty_scoped hle hrenames
  rwa [rename_id, rename_id] at h'

lemma IsType.instantiateLevelParams (henv : env.Scoped) (h : env.IsType ps {} [] T) (hlen : ps.length = ls.length)
    (hls : ∀ l ∈ ls, l.Admitted ps') (Γ : Context) (Δ : List Term) :
    env.IsType ps' Γ Δ (T.instantiateLevelParams ps ls) := by
  obtain ⟨l, hl⟩ := h
  have h' := hl.instantiateLevelParams henv hlen hls Γ Δ
  rw [instantiateLevelParams_eq_mapLevels ps ls (.sort l)] at h'
  exact ⟨_, h'⟩

lemma HasType.conv_type {A B : Term} (h : env.HasType True ps Γ Δ m A) (hconv : env.Conv A B)
    (hB : env.IsType ps Γ Δ B) : env.HasType True ps Γ Δ m B := by
  obtain ⟨l, hl⟩ := hB
  exact .conv h hconv fun _ => hl

/-! ## Uniqueness and validity -/

lemma WellTyped.admits_noFree (henv : env.WellTyped) : env.Admits noFree :=
  henv.inScope.admits_noFree

/-- The types of a term are convertible. -/
lemma HasType.unique (henv : env.WellTyped) {T' : Term} (h : env.HasType strict ps Γ Δ m T)
    (h' : env.HasType strict ps Γ Δ m T') : env.Conv T T' := by
  have hadmits := henv.admits_noFree
  induction h generalizing T' with
  | var hb =>
    obtain ⟨A, hb', hA⟩ := h'.var_inv
    have heq : ∀ {Δ i A A'}, Bound Δ i A → Bound Δ i A' → A = A' := by
      intro Δ i A A' hb hb'
      induction hb generalizing A' with
      | zero => cases hb'; rfl
      | succ _ _ ih =>
        cases hb' with
        | succ _ hb' => rw [ih hb']
    exact heq hb hb' ▸ hA
  | free hget =>
    obtain ⟨y, hget', hy⟩ := h'.free_inv
    exact Option.some.inj (hget.symm.trans hget') ▸ hy
  | sort _ => exact h'.sort_inv.2
  | const hd hc hkind _ _ =>
    obtain ⟨d', hd', hc', hkind', _, _, hT⟩ := h'.const_inv
    exact henv.unique _ hd d' hd' hkind hkind' (hc.trans hc'.symm) ▸ hT
  | ctor ht hk _ _ =>
    obtain ⟨t', k', ht', hk', _, _, hT⟩ := h'.ctor_inv
    obtain rfl := Option.some.inj (ht.symm.trans ht')
    obtain rfl := Option.some.inj (hk.symm.trans hk')
    exact hT
  | @app _ f a t b x i _ _ ihf _ =>
    obtain ⟨x', i', t', b', hf', _, hT⟩ := h'.app_inv
    exact (((ihf hf').pi_inj hadmits).2.instantiate hadmits (.refl a)).trans hT
  | lam _ _ _ ihb =>
    obtain ⟨l', B', _, hb', hT⟩ := h'.lam_inv
    exact (Conv.pi (.refl _) (ihb hb')).trans hT
  | pi _ _ iht ihb =>
    obtain ⟨l₁, l₂, ht', hb', hT⟩ := h'.pi_inv
    have hl := (iht ht').sort_inj hadmits
    have hl' := (ihb hb').sort_inj hadmits
    refine (Conv.sort fun v => ?_).trans hT
    rw [Level.value, Level.value, hl v, hl' v]
  | conv _ hconv _ ih _ => exact hconv.symm.trans (ih h')

lemma ContextTyped.bound (henv : env.WellTyped) (hΓ : env.ContextTyped ps Γ) (hΔ : env.BindersTyped ps Γ Δ)
    {A : Term} (h : Bound Δ i A) : env.IsType ps Γ Δ A := by
  induction h with
  | zero A Δ =>
    obtain ⟨l, hl⟩ := hΔ.1
    exact ⟨l, hl.shift henv.inScope hΓ.inScope A⟩
  | succ B _ ih =>
    obtain ⟨l, hl⟩ := ih hΔ.2
    exact ⟨l, hl.shift henv.inScope hΓ.inScope B⟩

/-- The type of a term is a type. -/
lemma HasType.valid (henv : env.WellTyped) (hΓ : env.ContextTyped ps Γ) (hΔ : env.BindersTyped ps Γ Δ)
    (h : env.HasType True ps Γ Δ m T) : env.IsType ps Γ Δ T := by
  have hscoped := henv.inScope
  induction h with
  | var hb => exact hΓ.bound henv hΔ hb
  | @free Δ _ _ hget =>
    obtain ⟨l, hl⟩ := hΓ _ _ hget
    exact ⟨l, hl.under hscoped hΓ.inScope Δ⟩
  | sort hl => exact ⟨_, .sort (Level.admitted_succ.mpr hl)⟩
  | const hd _ hkind hlen hls =>
    exact (henv.types _ hd hkind).instantiateLevelParams hscoped hlen hls Γ _
  | ctor ht hk hlen hls =>
    exact (henv.ctors _ _ ht _ (List.mem_of_getElem? hk)).instantiateLevelParams hscoped hlen hls Γ _
  | app _ ha ihf _ =>
    obtain ⟨l, hpi⟩ := ihf hΔ
    obtain ⟨_, l', _, hb, _⟩ := hpi.pi_inv
    exact ⟨l', hb.instantiate hscoped hΓ.inScope ha⟩
  | lam ht _ _ ihb =>
    obtain ⟨l', hB⟩ := ihb ⟨⟨_, ht⟩, hΔ⟩
    exact ⟨_, .pi ht hB⟩
  | pi ht _ iht ihb =>
    obtain ⟨_, hl⟩ := iht hΔ
    obtain ⟨_, hl'⟩ := ihb ⟨⟨_, ht⟩, hΔ⟩
    exact ⟨_, .sort (Level.admitted_imax.mpr ⟨hl.sort_inv.1, hl'.sort_inv.1⟩)⟩
  | conv _ _ hB _ _ => exact ⟨_, hB trivial⟩

/-! ## Subject reduction -/

/-- A recursor on a constructor contracts to a term of the same type. -/
def IotaTyped (env : Env) : Prop :=
  ∀ {c : Name} {ls ls' : List Level} {t : InductiveType} {i : Nat} {k : Constructor} {n : Name}
    {args params fields : List Term} {minor : Term}, env.recursorOf? c = some t → t.ctors[i]? = some k →
    args.length = majorIndex t → params.length = t.numParams → fields.length = k.numFields →
    args[t.numParams + 1 + i]? = some minor →
    ∀ {ps : List Name} {Γ : Context} {Δ : List Term} {T : Term}, env.ContextTyped ps Γ →
    env.BindersTyped ps Γ Δ →
    env.HasType True ps Γ Δ (.app ((const c ls).apply args)
      ((ctor t.name i n ls').apply (params ++ fields))) T →
    env.HasType True ps Γ Δ (minor.apply (fields ++ k.calls ((const c ls).apply args) fields)) T

lemma HasType.contract (henv : env.WellTyped) (hiota : env.IotaTyped) (hΓ : env.ContextTyped ps Γ)
    (hΔ : env.BindersTyped ps Γ Δ) (hstep : env.Contracts m m') (h : env.HasType True ps Γ Δ m T) :
    env.HasType True ps Γ Δ m' T := by
  have hadmits := henv.admits_noFree
  have hT := h.valid henv hΓ hΔ
  cases hstep with
  | beta x t b a =>
    obtain ⟨x', i', A, B, hf, ha, hconv⟩ := h.app_inv
    obtain ⟨l, B', ht, hb, hpi⟩ := hf.lam_inv
    obtain ⟨htA, hBB⟩ := hpi.pi_inj hadmits
    have ha' : env.HasType True ps Γ Δ a t := ha.conv_type htA.symm ⟨l, ht⟩
    exact (hb.instantiate henv.inScope hΓ.inScope ha').conv_type
      ((hBB.instantiate hadmits (.refl a)).trans hconv) hT
  | @delta c ls d value height hget hkind hlen =>
    obtain ⟨d', hd', hc, hkind', hlen', hls, hconv⟩ := h.const_inv
    have hd := List.mem_of_find?_eq_some hget
    obtain rfl : d = d' := henv.unique d hd d' hd' (by simp [hkind]) hkind' ((name_of_get? hget).trans hc.symm)
    have hvalue := (henv.values d hd value height hkind).instantiateLevelParams henv.inScope hlen hls Γ Δ
    exact hvalue.conv_type hconv hT
  | iota hrec hk hargs hparams hfields hminor =>
    exact hiota hrec hk hargs hparams hfields hminor hΓ hΔ h

lemma HasType.step (henv : env.WellTyped) (hiota : env.IotaTyped) (hΓ : env.ContextTyped ps Γ)
    (hΔ : env.BindersTyped ps Γ Δ) (hstep : env.Step m m') (h : env.HasType True ps Γ Δ m T) :
    env.HasType True ps Γ Δ m' T := by
  induction hstep generalizing T with
  | contract hstep => exact h.contract henv hiota hΓ hΔ hstep
  | fn a _ ih =>
    obtain ⟨x, i, A, B, hf, ha, hconv⟩ := h.app_inv
    exact (HasType.app (ih hf) ha).conv_type hconv (h.valid henv hΓ hΔ)
  | @arg f a a' hstep ih =>
    obtain ⟨x, i, A, B, hf, ha, hconv⟩ := h.app_inv
    have hB := (Conv.refl B).instantiate henv.admits_noFree (Conv.of_step hstep).symm
    exact (HasType.app hf (ih ha)).conv_type (hB.trans hconv) (h.valid henv hΓ hΔ)

/-- A term keeps its type under reduction. -/
lemma HasType.steps (henv : env.WellTyped) (hiota : env.IotaTyped) (hΓ : env.ContextTyped ps Γ)
    (hΔ : env.BindersTyped ps Γ Δ) (hsteps : env.Steps m m') (h : env.HasType True ps Γ Δ m T) :
    env.HasType True ps Γ Δ m' T := by
  induction hsteps with
  | refl => exact h
  | tail _ hstep ih => exact ih.step henv hiota hΓ hΔ hstep

end Env

end ProofAssistant
