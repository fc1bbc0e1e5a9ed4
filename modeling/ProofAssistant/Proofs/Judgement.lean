import ProofAssistant.Proofs.Convertibility

/-!
# The typing judgement

`Env.HasType` is the declarative type system: one rule for each kind of term, and conversion. The binders
around a term are given by a list of types, next to the context of hypotheses, so that no rule opens a
binder. If `strict` holds, conversion leads to types only; otherwise to any convertible term.
-/

namespace ProofAssistant

open Term List

variable {x h : Local} {Γ : Context} {i : Nat} {ξ : Nat → Nat} {s : Replacement}

/-- The variable `i` has type `A` under binders of the given types, the innermost first. -/
inductive Bound : List Term → (i : Nat) → (A : Term) → Prop
  | zero (A : Term) (Δ : List Term) : Bound (A :: Δ) 0 A.shift
  | succ {Δ : List Term} {i : Nat} {A : Term} (B : Term) : Bound Δ i A → Bound (B :: Δ) (i + 1) A.shift

namespace Env

open InductiveSpec

/-- The term `m` has type `T` in `Γ`, under binders of the types `Δ`. Constructors are no constants, but one of the same
name may have been declared after a constant. -/
inductive HasType (env : Env) (strict : Prop) (ps : List Name) (Γ : Context) :
    List Term → (m T : Term) → Prop
  | var {Δ : List Term} {i : Nat} {A : Term} : Bound Δ i A → HasType env strict ps Γ Δ (.var i) A
  | free {Δ : List Term} {x : Id} {h : Local} : Γ.get? x = some h →
    HasType env strict ps Γ Δ (.free x) h.type
  | sort {Δ : List Term} {l : Level} : l.Admitted ps →
    HasType env strict ps Γ Δ (.sort l) (.sort (.succ l))
  | const {Δ : List Term} {c : Name} {ls : List Level} {d : Decl} : d ∈ env.decls → d.name = c →
    (∀ t i, d.kind ≠ .constructor t i) → d.levelParams.length = ls.length → (∀ l ∈ ls, l.Admitted ps) →
    HasType env strict ps Γ Δ (.const c ls) (d.type.instantiateLevelParams d.levelParams ls)
  | ctor {Δ : List Term} {family : Name} {i : Nat} {n : Name} {ls : List Level} {t : InductiveType}
    {k : Constructor} : env.inductive? family = some t → t.ctors[i]? = some k →
    t.levelParams.length = ls.length → (∀ l ∈ ls, l.Admitted ps) →
    HasType env strict ps Γ Δ (.ctor family i n ls) (k.type.instantiateLevelParams t.levelParams ls)
  | app {Δ : List Term} {f a t b : Term} {x : Name} {i : Bool} :
    HasType env strict ps Γ Δ f (.pi x i t b) → HasType env strict ps Γ Δ a t →
    HasType env strict ps Γ Δ (.app f a) (b.instantiate a)
  | lam {Δ : List Term} {x : Name} {t b B : Term} {l : Level} : HasType env strict ps Γ Δ t (.sort l) →
    HasType env strict ps Γ (t :: Δ) b B → HasType env strict ps Γ Δ (.lam x t b) (.pi x false t B)
  | pi {Δ : List Term} {x : Name} {i : Bool} {t b : Term} {l l' : Level} :
    HasType env strict ps Γ Δ t (.sort l) → HasType env strict ps Γ (t :: Δ) b (.sort l') →
    HasType env strict ps Γ Δ (.pi x i t b) (.sort (.imax l l'))
  | conv {Δ : List Term} {m A B : Term} {l : Level} : HasType env strict ps Γ Δ m A → env.Conv A B →
    (strict → HasType env strict ps Γ Δ B (.sort l)) → HasType env strict ps Γ Δ m B

end Env

/-- The types of the hypotheses mention hypotheses only. -/
def Context.Scoped (Γ : Context) : Prop :=
  ∀ x h, Γ.get? x = some h → h.type.In { free := (· ∈ Γ.ids) } 0

lemma Context.mem_ids_of_get? {x : Id} (hget : Γ.get? x = some h) : x ∈ Γ.ids := by
  have hx : h.id = x := by simpa using find?_some hget
  exact hx ▸ mem_map_of_mem (mem_reverse.mp (mem_of_find?_eq_some hget))

@[simp] lemma Context.get?_empty (x : Id) : (Context.mk []).get? x = none := rfl

lemma Context.get?_add (Γ : Context) (h : Local) (x : Id) :
    (Γ.add h).get? x = if h.id = x then some h else Γ.get? x := by
  simp only [get?, locals_add, reverse_append, reverse_singleton, singleton_append,
    find?_cons]
  by_cases hx : h.id = x
  · simp [hx]
  · rw [beq_eq_false_iff_ne.mpr hx, if_neg hx]

@[simp] lemma Context.ids_add (Γ : Context) (h : Local) : (Γ.add h).ids = Γ.ids ++ [h.id] := by
  simp [ids]

lemma Context.mem_ids_add {x : Id} : x ∈ (Γ.add h).ids ↔ x ∈ Γ.ids ∨ x = h.id := by
  rw [ids_add, mem_append, mem_singleton]

lemma Context.fresh_add {ys : List Local} (hys : ∀ y ∈ ys, y.id ∉ Γ.ids)
    (hx : x.id ∉ ys.map Local.id) : ∀ y ∈ ys, y.id ∉ (Γ.add x).ids := by
  intro y hy hmem
  rcases mem_ids_add.mp hmem with hmem | hyx
  · exact hys y hy hmem
  · exact hx (hyx ▸ mem_map_of_mem hy)

namespace Env

variable {Δ Δ' : List Term} {m T m' : Term} {Γ' : Context}

open InductiveSpec

variable {env : Env} {strict : Prop} {ps : List Name} {Γ : Context}

/-- A typed term mentions hypotheses of the context and variables of the binders around it. -/
lemma HasType.in_scope (h : env.HasType strict ps Γ Δ m T) : m.In { free := (· ∈ Γ.ids) } Δ.length := by
  induction h with
  | var hb =>
    induction hb with
    | zero A Δ => exact Nat.succ_pos _
    | succ B _ ih => exact Nat.succ_lt_succ ih
  | free hget => exact Context.mem_ids_of_get? hget
  | sort _ => trivial
  | const _ _ _ _ _ => trivial
  | ctor _ _ _ _ => trivial
  | app _ _ ihf iha => exact ⟨ihf, iha⟩
  | lam _ _ iht ihb => exact ⟨iht, ihb⟩
  | pi _ _ iht ihb => exact ⟨iht, ihb⟩
  | conv _ _ _ ih _ => exact ih

/-! ## Declared types are closed -/

lemma Scoped.type_closed (henv : env.Scoped) {d : Decl} (hd : d ∈ env.decls) (ls : List Level) :
    (d.type.instantiateLevelParams d.levelParams ls).In noFree 0 := by
  rw [instantiateLevelParams_eq_mapLevels]
  exact ((henv.terms d hd _ d.type_mem_terms).widen (scope_le_noFree _ _)).mapLevels_free _

lemma Scoped.ctor_closed (henv : env.Scoped) {n : Name} {t : InductiveType} (ht : env.inductive? n = some t)
    {k : Constructor} (hk : t.ctors[i]? = some k) (ls : List Level) :
    (k.type.instantiateLevelParams t.levelParams ls).In noFree 0 := by
  rw [instantiateLevelParams_eq_mapLevels]
  exact ((henv.ctors n t ht k (mem_of_getElem? hk)).widen (scope_le_noFree _ _)).mapLevels_free _

lemma rename_eq_self_of_in {S : Scope} (hm : m.In S 0) (ξ : Nat → Nat) : m.rename ξ = m :=
  rename_eq_self fun i hi => absurd (Nat.lt_of_lt_of_le hi hm.looseBound_le) (Nat.not_lt_zero i)

lemma replace_eq_self_of_closed (hm : m.In noFree 0) (s : Replacement) : m.replace s = m :=
  hm.replace_eq_self fun _ hx => hx.elim

/-! ## Renaming -/

/-- The renaming leads from the variables of some binders to those of others, of the same types. -/
def Renames (ξ : Nat → Nat) (Δ Δ' : List Term) : Prop :=
  ∀ i A, Bound Δ i A → Bound Δ' (ξ i) (A.rename ξ)

lemma Renames.up (h : Renames ξ Δ Δ') (A : Term) : Renames (upRenaming ξ) (A :: Δ) (A.rename ξ :: Δ') := by
  intro i B hB
  cases hB with
  | zero =>
    rw [shift_rename]
    exact .zero _ _
  | succ _ hB =>
    rw [shift_rename]
    exact .succ _ (h _ _ hB)

/-- Typed terms stay so under a renaming of their variables and in a larger context. -/
lemma HasType.rename (henv : env.Scoped) (hΓ : Γ.Scoped) (h : env.HasType strict ps Γ Δ m T)
    (hle : ∀ x y, Γ.get? x = some y → Γ'.get? x = some y) (hξ : Renames ξ Δ Δ') :
    env.HasType strict ps Γ' Δ' (m.rename ξ) (T.rename ξ) := by
  induction h generalizing ξ Δ' with
  | var hb => exact .var (hξ _ _ hb)
  | free hget =>
    rw [rename_eq_self_of_in (hΓ _ _ hget)]
    exact .free (hle _ _ hget)
  | sort hl => exact .sort hl
  | const hd hc hkind hlen hls =>
    rw [rename_eq_self_of_in (henv.type_closed hd _)]
    exact .const hd hc hkind hlen hls
  | ctor ht hk hlen hls =>
    rw [rename_eq_self_of_in (henv.ctor_closed ht hk _)]
    exact .ctor ht hk hlen hls
  | app _ _ ihf iha =>
    rw [rename_instantiate]
    exact .app (ihf hξ) (iha hξ)
  | lam _ _ iht ihb => exact .lam (iht hξ) (ihb (hξ.up _))
  | pi _ _ iht ihb => exact .pi (iht hξ) (ihb (hξ.up _))
  | conv _ hconv _ ih ihB => exact .conv (ih hξ) (hconv.rename henv.admits_noFree ξ) fun hs => ihB hs hξ

lemma HasType.shift (henv : env.Scoped) (hΓ : Γ.Scoped) (h : env.HasType strict ps Γ Δ m T) (A : Term) :
    env.HasType strict ps Γ (A :: Δ) m.shift T.shift :=
  h.rename henv hΓ (fun _ _ hx => hx) fun _ _ hb => .succ A hb

lemma HasType.weaken (henv : env.Scoped) (hΓ : Γ.Scoped) (h : env.HasType strict ps Γ Δ m T)
    (hle : ∀ x y, Γ.get? x = some y → Γ'.get? x = some y) : env.HasType strict ps Γ' Δ m T := by
  have hid : Renames id Δ Δ := fun i A hb => by rwa [rename_id]
  have h' := h.rename henv hΓ hle hid
  rwa [rename_id, rename_id] at h'

lemma HasType.under (henv : env.Scoped) (hΓ : Γ.Scoped) (h : env.HasType strict ps Γ [] m T) (Δ : List Term) :
    env.HasType strict ps Γ Δ m T := by
  have h' : env.HasType strict ps Γ Δ (m.rename id) (T.rename id) :=
    h.rename henv hΓ (fun _ _ hx => hx) fun _ _ hb => nomatch hb
  rwa [rename_id, rename_id] at h'

/-! ## Replacement -/

/-- What is put for the variables and the hypotheses has their types, after the replacement. -/
structure Puts (env : Env) (strict : Prop) (ps : List Name) (Γ : Context) (Δ : List Term) (Γ' : Context)
    (Δ' : List Term) (s : Replacement) : Prop where
  var : ∀ i A, Bound Δ i A → env.HasType strict ps Γ' Δ' (s.var i) (A.replace s)
  free : ∀ x h, Γ.get? x = some h → env.HasType strict ps Γ' Δ' (s.free x) (h.type.replace s)

lemma Puts.up (henv : env.Scoped) (hΓ : Γ.Scoped) (hΓ' : Γ'.Scoped) (h : Puts env strict ps Γ Δ Γ' Δ' s) (A : Term) :
    Puts env strict ps Γ (A :: Δ) Γ' (A.replace s :: Δ') s.up where
  var i B hB := by
    cases hB with
    | zero =>
      rw [replace_shift]
      exact .var (.zero _ _)
    | succ _ hB =>
      rw [replace_shift]
      exact (h.var _ _ hB).shift henv hΓ' _
  free x y hy := by
    have hclosed : y.type.shift = y.type := rename_eq_self_of_in (hΓ x y hy) _
    rw [← hclosed, replace_shift]
    exact (h.free x y hy).shift henv hΓ' _

/-- Typed terms stay so when typed terms are put for their variables and hypotheses. -/
lemma HasType.replace (henv : env.Scoped) (hΓ : Γ.Scoped) (hΓ' : Γ'.Scoped) (h : env.HasType strict ps Γ Δ m T)
    (hs : Puts env strict ps Γ Δ Γ' Δ' s) : env.HasType strict ps Γ' Δ' (m.replace s) (T.replace s) := by
  induction h generalizing s Δ' with
  | var hb => exact hs.var _ _ hb
  | free hget => exact hs.free _ _ hget
  | sort hl => exact .sort hl
  | const hd hc hkind hlen hls =>
    rw [replace_eq_self_of_closed (henv.type_closed hd _)]
    exact .const hd hc hkind hlen hls
  | ctor ht hk hlen hls =>
    rw [replace_eq_self_of_closed (henv.ctor_closed ht hk _)]
    exact .ctor ht hk hlen hls
  | app _ _ ihf iha =>
    rw [replace_instantiate]
    exact .app (ihf hs) (iha hs)
  | lam _ _ iht ihb => exact .lam (iht hs) (ihb (hs.up henv hΓ hΓ' _))
  | pi _ _ iht ihb => exact .pi (iht hs) (ihb (hs.up henv hΓ hΓ' _))
  | conv _ hconv _ ih ihB =>
    exact .conv (ih hs) (hconv.replace henv.admits_noFree s) fun hstrict => ihB hstrict hs

/-- A term of the type of a binder may be put for its variable. -/
lemma HasType.instantiate (henv : env.Scoped) (hΓ : Γ.Scoped) {A b B a : Term}
    (hb : env.HasType strict ps Γ (A :: Δ) b B) (ha : env.HasType strict ps Γ Δ a A) :
    env.HasType strict ps Γ Δ (b.instantiate a) (B.instantiate a) := by
  rw [instantiate_eq_replace, instantiate_eq_replace]
  refine hb.replace henv hΓ hΓ ⟨fun i C hC => ?_, fun x y hy => ?_⟩
  · cases hC with
    | zero =>
      rw [← instantiate_eq_replace, instantiate_shift]
      exact ha
    | succ _ hC =>
      rw [← instantiate_eq_replace, instantiate_shift]
      exact .var hC
  · have hclosed : y.type.replace (.single a) = y.type :=
      (hΓ x y hy).replace_eq_self fun _ _ => rfl
    rw [hclosed]
    exact .free hy

lemma scoped_add (hΓ : Γ.Scoped) (hx : x.type.In { free := (· ∈ Γ.ids) } 0) :
    (Γ.add x).Scoped := by
  intro y h hget
  have hle : Scope.Le { free := (· ∈ Γ.ids) } { free := (· ∈ (Γ.add x).ids) } :=
    { free := fun z hz => by simpa using .inl hz }
  rw [Context.get?_add] at hget
  split at hget
  · obtain rfl := Option.some.inj hget
    exact hx.widen hle
  · exact (hΓ y h hget).widen hle

lemma HasType.abstract (henv : env.Scoped) (hΓ : Γ.Scoped) (hx : x.id ∉ Γ.ids)
    (htype : x.type.In { free := (· ∈ Γ.ids) } 0) (h : env.HasType strict ps (Γ.add x) [] m T) :
    env.HasType strict ps Γ [x.type] (m.replace (.abstracted x.id)) (T.replace (.abstracted x.id)) := by
  refine h.replace henv (scoped_add hΓ htype) hΓ ⟨fun i A hA => (nomatch hA), fun y h hget => ?_⟩
  rw [Context.get?_add] at hget
  split at hget
  · rename_i hxy
    obtain rfl := Option.some.inj hget
    subst hxy
    rw [replace_abstracted_eq_shift htype hx, show (Replacement.abstracted x.id).free x.id = .var 0 from if_pos rfl]
    exact .var (.zero _ _)
  · rename_i hxy
    have hclosed : h.type.shift = h.type := rename_eq_self_of_in (hΓ y h hget) _
    rw [replace_abstracted_eq_shift (hΓ y h hget) hx, hclosed,
      show (Replacement.abstracted x.id).free y = .free y from if_neg (Ne.symm hxy)]
    exact .free hget

/-! ## Arguments for universe parameters -/

/-- A contraction is one also at arguments for universe parameters, since definitions have no other
parameters than those declared. -/
lemma Contracts.mapLevels (henv : env.Scoped) (h : env.Contracts m m') (qs : List Name) (bs : List Level) :
    env.Contracts (m.mapLevels (·.instantiateParams qs bs)) (m'.mapLevels (·.instantiateParams qs bs)) := by
  cases h with
  | beta x t b a =>
    rw [mapLevels_instantiate]
    exact .beta x _ _ _
  | @delta c ls d value height hget hkind hlen =>
    have hvalue : value ∈ d.terms := by simp [Decl.terms, hkind]
    rw [instantiateLevelParams_comp (henv.terms d (mem_of_find?_eq_some hget) value hvalue) hlen]
    exact .delta hget hkind (by simpa using hlen)
  | iota hrec hk hargs hparams hfields hminor =>
    simp only [mapLevels, mapLevels_apply, map_append,
      Constructor.map_calls (g := (·.mapLevels (·.instantiateParams qs bs))) fun _ _ => rfl]
    exact .iota hrec hk (by simpa using hargs) (by simpa using hparams) (by simpa using hfields)
      (by simp [hminor])

lemma forall₂_same_map {ls ls' : List Level} (h : List.Forall₂ Level.Same ls ls') (qs : List Name) (bs : List Level) :
    List.Forall₂ Level.Same (ls.map (·.instantiateParams qs bs)) (ls'.map (·.instantiateParams qs bs)) := by
  rw [forall₂_map_left_iff, forall₂_map_right_iff]
  exact h.imp fun _ _ hl => hl.instantiateParams qs bs

lemma Conv.mapLevels (henv : env.Scoped) (h : env.Conv m m') (qs : List Name) (bs : List Level) :
    env.Conv (m.mapLevels (·.instantiateParams qs bs)) (m'.mapLevels (·.instantiateParams qs bs)) := by
  induction h with
  | refl m => exact .refl _
  | symm _ ih => exact ih.symm
  | trans _ _ ih ih' => exact ih.trans ih'
  | contract h => exact .contract (h.mapLevels henv qs bs)
  | eta x t f =>
    simp only [Term.mapLevels, Term.shift, Term.mapLevels_rename]
    exact .eta x _ _
  | sort h => exact .sort (h.instantiateParams qs bs)
  | const h => exact .const (forall₂_same_map h qs bs)
  | ctor h => exact .ctor (forall₂_same_map h qs bs)
  | hole h d d' => exact .hole h d d'
  | app _ _ ihf iha => exact .app ihf iha
  | lam _ _ iht ihb => exact .lam iht ihb
  | pi _ _ iht ihb => exact .pi iht ihb

lemma bound_mapLevels {A : Term} (h : Bound Δ i A) (f : Level → Level) :
    Bound (Δ.map (·.mapLevels f)) i (A.mapLevels f) := by
  induction h with
  | zero A Δ =>
    rw [shift, mapLevels_rename]
    exact .zero _ _
  | succ B _ ih =>
    rw [shift, mapLevels_rename]
    exact .succ _ ih

/-- Terms that are typed without hypotheses stay so at arguments for their universe parameters. -/
lemma HasType.mapLevels (henv : env.Scoped) (h : env.HasType strict ps {} Δ m T) {args : List Level}
    (hlen : ps.length = args.length) {ps' : List Name} (hargs : ∀ a ∈ args, a.Admitted ps') :
    env.HasType strict ps' {} (Δ.map (·.mapLevels (·.instantiateParams ps args)))
      (m.mapLevels (·.instantiateParams ps args)) (T.mapLevels (·.instantiateParams ps args)) := by
  have hadmitted : ∀ ls : List Level, (∀ l ∈ ls, l.Admitted ps) →
      ∀ l ∈ ls.map (·.instantiateParams ps args), l.Admitted ps' := by
    intro ls hls l hl
    obtain ⟨l', hl', rfl⟩ := mem_map.mp hl
    exact (hls l' hl').instantiateParams hlen hargs
  induction h with
  | var hb => exact .var (bound_mapLevels hb _)
  | free hget => simp at hget
  | sort hl => exact .sort (hl.instantiateParams hlen hargs)
  | @const _ c ls d hd hc hkind hlen' hls =>
    rw [instantiateLevelParams_comp (henv.terms d hd _ d.type_mem_terms) hlen']
    exact .const hd hc hkind (by simpa using hlen') (hadmitted ls hls)
  | @ctor _ family i n ls t k ht hk hlen' hls =>
    rw [instantiateLevelParams_comp (henv.ctors _ _ ht _ (mem_of_getElem? hk)) hlen']
    exact .ctor ht hk (by simpa using hlen') (hadmitted ls hls)
  | app _ _ ihf iha =>
    rw [mapLevels_instantiate]
    exact .app ihf iha
  | lam _ _ iht ihb => exact .lam iht ihb
  | pi _ _ iht ihb => exact .pi iht ihb
  | conv _ hconv _ ih ihB => exact .conv ih (hconv.mapLevels henv ps args) ihB

/-! ## Larger environments -/

/-- What is typed in an environment is so in the other one. -/
structure Extends (env env' : Env) : Prop where
  decls : ∀ d ∈ env.decls, d ∈ env'.decls
  families : ∀ n t, env.inductive? n = some t → env'.inductive? n = some t
  definitions : ∀ c d v n, env.get? c = some d → d.kind = .definition v n → env'.get? c = some d
  recursors : ∀ c t, env.recursorOf? c = some t → env'.recursorOf? c = some t

variable {env' : Env}

lemma Contracts.extend (hext : env.Extends env') (h : env.Contracts m m') : env'.Contracts m m' := by
  cases h with
  | beta x t b a => exact .beta x t b a
  | delta hget hkind hlen => exact .delta (hext.definitions _ _ _ _ hget hkind) hkind hlen
  | iota hrec hk hargs hparams hfields hminor =>
    exact .iota (hext.recursors _ _ hrec) hk hargs hparams hfields hminor

lemma Conv.extend (hext : env.Extends env') (h : env.Conv m m') : env'.Conv m m' := by
  induction h with
  | refl m => exact .refl m
  | symm _ ih => exact ih.symm
  | trans _ _ ih ih' => exact ih.trans ih'
  | contract h => exact .contract (h.extend hext)
  | eta x t f => exact .eta x t f
  | sort h => exact .sort h
  | const h => exact .const h
  | ctor h => exact .ctor h
  | hole h d d' => exact .hole h d d'
  | app _ _ ihf iha => exact .app ihf iha
  | lam _ _ iht ihb => exact .lam iht ihb
  | pi _ _ iht ihb => exact .pi iht ihb

lemma HasType.extend (hext : env.Extends env') (h : env.HasType strict ps Γ Δ m T) :
    env'.HasType strict ps Γ Δ m T := by
  induction h with
  | var hb => exact .var hb
  | free hget => exact .free hget
  | sort hl => exact .sort hl
  | const hd hc hkind hlen hls => exact .const (hext.decls _ hd) hc hkind hlen hls
  | ctor ht hk hlen hls => exact .ctor (hext.families _ _ ht) hk hlen hls
  | app _ _ ihf iha => exact .app ihf iha
  | lam _ _ iht ihb => exact .lam iht ihb
  | pi _ _ iht ihb => exact .pi iht ihb
  | conv _ hconv _ ih ihB => exact .conv ih (hconv.extend hext) ihB

end Env

end ProofAssistant
