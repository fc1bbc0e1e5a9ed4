import ProofAssistant.Proofs.Skeleton
import ProofAssistant.Proofs.Foundation

/-!
# Confluence of skeletons

`Skel.Par` reduces any number of redexes of a skeleton at once, by β, δ and ι, and `Skel.EtaPar` does so by η. Each of
the two has the diamond property, and they commute, so their union is confluent (`Skel.joins_equivalence`).
-/

namespace ProofAssistant

open Skel InductiveSpec List

variable {b' u r' : Skel} {c : Name}

namespace Skel

variable {a b a' s s' f r f' s₁ s₂ : Skel} {as as' : List Skel} {ξ : Nat → Nat} {R : Skel → Skel → Prop}

/-- The recursive calls on the fields of a constructor. -/
def calls (k : Constructor) (recursor : Skel) (fields : List Skel) : List Skel :=
  ((fields.zip k.recursive).filter Prod.snd).map fun (x, _) => recursor.app x

/-- The value of a definition at levels of the given meanings. -/
inductive Unfolds (env : Env) : Atom → Skel → Prop
  | mk {c : Name} {ls : List Level} {d : Decl} {value : Term} {height : Nat} : env.get? c = some d →
    d.kind = .definition value height → d.levelParams.length = ls.length →
    Unfolds env (.const c (ls.map Level.meaning)) (value.instantiateLevelParams d.levelParams ls).erase

/-- A recursor with its arguments up to the scrutinee, a constructor with all its arguments, and what the
one on the other contracts to. -/
inductive Iota (env : Env) : Skel → Skel → Skel → Prop
  | mk {c : Name} {vs vs' : List (Level.Valuation → Nat)} {t : InductiveType} {i : Nat} {k : Constructor}
    {args params fields : List Skel} {minor : Skel} :
    env.recursorOf? c = some t → t.ctors[i]? = some k → args.length = Env.majorIndex t →
    params.length = t.numParams → fields.length = k.numFields →
    args[t.numParams + 1 + i]? = some minor →
    Iota env ((atom (.const c vs)).apply args) ((atom (.ctor t.name i vs')).apply (params ++ fields))
      (minor.apply (fields ++ calls k ((atom (.const c vs)).apply args) fields))

/-- Parallel reduction by β, δ and ι. -/
inductive Par (env : Env) : Skel → Skel → Prop
  | var (i : Nat) : Par env (.var i) (.var i)
  | atom (a : Atom) : Par env (.atom a) (.atom a)
  | app {f f' a a' : Skel} : Par env f f' → Par env a a' → Par env (.app f a) (.app f' a')
  | lam {b b' : Skel} : Par env b b' → Par env (.lam b) (.lam b')
  | pi {t t' b b' : Skel} : Par env t t' → Par env b b' → Par env (.pi t b) (.pi t' b')
  | beta {f b a a' : Skel} : Par env f (.lam b) → Par env a a' → Par env (.app f a) (b.inst a')
  | delta {a : Atom} {s : Skel} : Unfolds env a s → Par env (.atom a) s
  | iota {f f' a a' r : Skel} : Par env f f' → Par env a a' → Iota env f' a' r → Par env (.app f a) r

/-- Parallel reduction by η. -/
inductive EtaPar : Skel → Skel → Prop
  | var (i : Nat) : EtaPar (.var i) (.var i)
  | atom (a : Atom) : EtaPar (.atom a) (.atom a)
  | app {f f' a a' : Skel} : EtaPar f f' → EtaPar a a' → EtaPar (.app f a) (.app f' a')
  | lam {b b' : Skel} : EtaPar b b' → EtaPar (.lam b) (.lam b')
  | pi {t t' b b' : Skel} : EtaPar t t' → EtaPar b b' → EtaPar (.pi t b) (.pi t' b')
  | eta {f f' : Skel} : EtaPar f f' → EtaPar (.lam (.app f.shift (.var 0))) f'

variable {env : Env}

/-! ## Spines -/

lemma apply_atom_ne_lam {a : Atom} : (atom a).apply as ≠ .lam b := by
  induction as using List.reverseRecOn with
  | nil => simp
  | append_singleton as c _ => simp [apply_concat]

lemma apply_atom_ne_var {a : Atom} {i : Nat} : (atom a).apply as ≠ .var i := by
  induction as using List.reverseRecOn with
  | nil => simp
  | append_singleton as c _ => simp [apply_concat]

lemma apply_atom_inj {a a' : Atom} (h : (atom a).apply as = (atom a').apply as') : a = a' ∧ as = as' := by
  induction as using List.reverseRecOn generalizing as' with
  | nil =>
    induction as' using List.reverseRecOn with
    | nil => simpa using h
    | append_singleton as' c _ => simp [apply_concat] at h
  | append_singleton as b ih =>
    induction as' using List.reverseRecOn with
    | nil => simp [apply_concat] at h
    | append_singleton as' c _ =>
      rw [apply_concat, apply_concat, app.injEq] at h
      obtain ⟨rfl, rfl⟩ := ih h.1
      exact ⟨rfl, by rw [h.2]⟩

lemma eq_apply_of_rename_eq {a : Atom} (h : s.rename ξ = (atom a).apply as) :
    ∃ bs, s = (atom a).apply bs ∧ as = bs.map (·.rename ξ) := by
  induction as using List.reverseRecOn generalizing s with
  | nil =>
    cases s <;> simp only [rename, apply_nil, reduceCtorEq] at h
    exact ⟨[], by rw [h, apply_nil], rfl⟩
  | append_singleton as b ih =>
    rw [apply_concat] at h
    cases s <;> simp only [rename, reduceCtorEq, app.injEq] at h
    rename_i f c
    obtain ⟨bs, rfl, rfl⟩ := ih h.1
    exact ⟨bs ++ [c], (apply_concat _ _ _).symm, by simp [h.2]⟩

/-- Relations that are kept by applications lead from spines to spines. -/
lemma apply_congr (happ : ∀ {f f' a a'}, R f f' → R a a' → R (.app f a) (.app f' a')) (h : R s s')
    (has : List.Forall₂ R as as') : R (s.apply as) (s'.apply as') := by
  induction has generalizing s s' with
  | nil => exact h
  | cons ha _ ih => exact ih (happ h ha)

/-! ## Contractions at the root -/

lemma calls_map (k : Constructor) (recursor : Skel) (fields : List Skel) (g : Skel → Skel)
    (hg : ∀ f a, g (.app f a) = .app (g f) (g a)) :
    (calls k recursor fields).map g = calls k (g recursor) (fields.map g) := by
  rw [calls, calls, zip_map_left, filter_map, map_map, map_map]
  exact map_congr_left fun p _ => hg recursor p.1

lemma calls_congr (happ : ∀ {f f' a a'}, R f f' → R a a' → R (.app f a) (.app f' a')) {k : Constructor} (h : R s s')
    (has : List.Forall₂ R as as') : List.Forall₂ R (calls k s as) (calls k s' as') := by
  have hzip : ∀ rs : List Bool, List.Forall₂ R
      (((as.zip rs).filter Prod.snd).map fun (x, _) => s.app x)
      (((as'.zip rs).filter Prod.snd).map fun (x, _) => s'.app x) := by
    induction has with
    | nil => simp
    | cons ha _ ih =>
      intro rs
      cases rs with
      | nil => simp
      | cons r rs =>
        cases r with
        | false => exact ih rs
        | true => exact .cons (happ h ha) (ih rs)
  exact hzip k.recursive

lemma Unfolds.unique {a : Atom} (h : Unfolds env a s) (h' : Unfolds env a s') : s = s' := by
  obtain @⟨c, ls, d, value, height, hget, hkind, hlen⟩ := h
  generalize ha : Atom.const c (ls.map Level.meaning) = a at h'
  obtain @⟨c', ls', d', value', height', hget', hkind', hlen'⟩ := h'
  obtain ⟨rfl, hls⟩ := Atom.const.inj ha
  obtain rfl : d = d' := Option.some.inj (hget.symm.trans hget')
  obtain ⟨rfl, rfl⟩ := Decl.Kind.definition.inj (hkind.symm.trans hkind')
  have hsame : ∀ l : Level, (l.instantiateParams d.levelParams ls).Same (l.instantiateParams d.levelParams ls') :=
    Level.Same.instantiate_args (Level.map_meaning_eq_iff.mp hls) d.levelParams
  rw [Term.instantiateLevelParams_eq_mapLevels, Term.instantiateLevelParams_eq_mapLevels]
  exact Term.erase_mapLevels_congr (Term.in_looseBound (Nat.le_refl _)) (fun l _ => hsame l)
    (fun _ _ _ l _ => hsame l) fun _ _ _ _ l _ => hsame l

lemma Unfolds.closed (henv : env.Admits noFree) {a : Atom} (h : Unfolds env a s) : s.Closed 0 := by
  obtain ⟨hget, hkind, hlen⟩ := h
  exact (henv _ _ _ _ _ hget hkind hlen trivial).closed_erase

lemma Iota.map (h : Iota env f a r) {g : Skel → Skel} (hatom : ∀ a, g (.atom a) = .atom a)
    (hg : ∀ f a, g (.app f a) = .app (g f) (g a)) : Iota env (g f) (g a) (g r) := by
  have happly : ∀ (as : List Skel) (s : Skel), g (s.apply as) = (g s).apply (as.map g) := by
    intro as
    induction as with
    | nil => intro s; rfl
    | cons a as ih => intro s; rw [apply_cons, ih, hg, map_cons, apply_cons]
  obtain @⟨c, vs, vs', t, i, k, args, params, fields, minor, hrec, hk, hargs, hparams, hfields, hminor⟩ := h
  simp only [happly, hatom, map_append, calls_map k _ _ g hg]
  exact .mk hrec hk (by simpa using hargs) (by simpa using hparams) (by simpa using hfields)
    (by simp [hminor])

lemma Iota.rename (h : Iota env f a r) (ξ : Nat → Nat) : Iota env (f.rename ξ) (a.rename ξ) (r.rename ξ) :=
  h.map (fun _ => rfl) fun _ _ => rfl

lemma Iota.subst (h : Iota env f a r) (σ : Nat → Skel) : Iota env (f.subst σ) (a.subst σ) (r.subst σ) :=
  h.map (fun _ => rfl) fun _ _ => rfl

lemma Iota.unique (h : Iota env f a r) (h' : Iota env f a r') : r = r' := by
  obtain @⟨c, vs, vs', t, i, k, args, params, fields, minor, hrec, hk, hargs, hparams, hfields, hminor⟩ := h
  generalize hf : (atom (.const c vs)).apply args = f at h'
  generalize ha : (atom (.ctor t.name i vs')).apply (params ++ fields) = a at h'
  cases h' with
  | mk hrec' hk' hargs' hparams' hfields' hminor' =>
    obtain ⟨hc, rfl⟩ := apply_atom_inj hf
    obtain ⟨rfl, rfl⟩ := Atom.const.inj hc
    obtain rfl := Option.some.inj (hrec.symm.trans hrec')
    obtain ⟨hi, hsplit⟩ := apply_atom_inj ha
    obtain ⟨_, rfl, _⟩ := Atom.ctor.inj hi
    obtain rfl := Option.some.inj (hk.symm.trans hk')
    obtain rfl := Option.some.inj (hminor.symm.trans hminor')
    obtain ⟨rfl, rfl⟩ := append_inj hsplit (hparams.trans hparams'.symm)
    rfl

lemma Iota.of_rename (h : Iota env (f.rename ξ) (a.rename ξ) r) : ∃ r₀, r = r₀.rename ξ ∧ Iota env f a r₀ := by
  generalize hf : f.rename ξ = f' at h
  generalize ha : a.rename ξ = a' at h
  obtain @⟨c, vs, vs', t, i, k, args, params, fields, minor, hrec, hk, hargs, hparams, hfields, hminor⟩ := h
  obtain ⟨bs, rfl, rfl⟩ := eq_apply_of_rename_eq hf
  obtain ⟨cs, rfl, hcs⟩ := eq_apply_of_rename_eq ha
  obtain ⟨ps, fs, rfl, rfl, rfl⟩ := List.append_eq_map_iff.mp hcs
  obtain ⟨m, hm, rfl⟩ : ∃ m : Skel, bs[t.numParams + 1 + i]? = some m ∧ m.rename ξ = minor := by
    simpa using hminor
  have hred : Iota env ((atom (.const c vs)).apply bs) ((atom (.ctor t.name i vs')).apply (ps ++ fs)) _ :=
    .mk hrec hk (by simpa using hargs) (by simpa using hparams) (by simpa using hfields) hm
  refine ⟨_, ?_, hred⟩
  rw [rename_apply, List.map_append, calls_map k _ _ (·.rename ξ) fun _ _ => rfl, rename_apply, Skel.rename]

/-- The contraction of a recursor and a constructor whose arguments have changed. -/
lemma Iota.congr (happ : ∀ {f f' a a'}, R f f' → R a a' → R (.app f a) (.app f' a'))
    (hatom : ∀ a, R (.atom a) (.atom a)) (h : Iota env f a r)
    (hf : ∀ {c vs t args}, env.recursorOf? c = some t → args.length = Env.majorIndex t →
      f = (atom (.const c vs)).apply args → ∃ args', f' = (atom (.const c vs)).apply args' ∧ List.Forall₂ R args args')
    (ha : ∀ {n i vs args}, a = (atom (.ctor n i vs)).apply args →
      ∃ args', a' = (atom (.ctor n i vs)).apply args' ∧ List.Forall₂ R args args') :
    ∃ r', Iota env f' a' r' ∧ R r r' := by
  obtain @⟨c, vs, vs', t, i, k, args, params, fields, minor, hrec, hk, hargs, hparams, hfields, hminor⟩ := h
  obtain ⟨args', rfl, hargs₂⟩ := hf hrec hargs rfl
  obtain ⟨cargs', rfl, hcargs₂⟩ := ha rfl
  obtain ⟨params', fields', hparams₂, hfields₂, rfl⟩ : ∃ params' fields', List.Forall₂ R params params' ∧
      List.Forall₂ R fields fields' ∧ cargs' = params' ++ fields' := by
    refine ⟨cargs'.take params.length, cargs'.drop params.length, ?_, ?_, (take_append_drop _ _).symm⟩
    · simpa using forall₂_take params.length hcargs₂
    · simpa using forall₂_drop params.length hcargs₂
  obtain ⟨minor', hminor', hm⟩ : ∃ minor', args'[t.numParams + 1 + i]? = some minor' ∧ R minor minor' := by
    obtain ⟨hi, rfl⟩ := List.getElem?_eq_some_iff.mp hminor
    have hi' : t.numParams + 1 + i < args'.length := hargs₂.length_eq ▸ hi
    exact ⟨_, getElem?_eq_getElem hi', hargs₂.get hi hi'⟩
  refine ⟨_, .mk hrec hk (hargs₂.length_eq ▸ hargs) (hparams₂.length_eq ▸ hparams)
    (hfields₂.length_eq ▸ hfields) hminor', apply_congr happ hm (rel_append hfields₂ ?_)⟩
  exact calls_congr happ (apply_congr happ (hatom _) hargs₂) hfields₂

/-! ## Reduction by β, δ and ι -/

namespace Par

variable {s : Skel}

lemma refl (s : Skel) : Par env s s := by
  induction s with
  | var i => exact .var i
  | atom a => exact .atom a
  | app f a ihf iha => exact .app ihf iha
  | lam b ih => exact .lam ih
  | pi t b iht ihb => exact .pi iht ihb

lemma rename (henv : env.Admits noFree) (h : Par env s s') (ξ : Nat → Nat) : Par env (s.rename ξ) (s'.rename ξ) := by
  induction h generalizing ξ with
  | var i => exact .var _
  | atom a => exact .atom a
  | app _ _ ihf iha => exact .app (ihf ξ) (iha ξ)
  | lam _ ih => exact .lam (ih _)
  | pi _ _ iht ihb => exact .pi (iht ξ) (ihb _)
  | beta _ _ ihf iha =>
    rw [rename_inst]
    exact .beta (ihf ξ) (iha ξ)
  | delta h =>
    rw [(h.closed henv).rename_eq_self]
    exact .delta h
  | iota _ _ h ihf iha => exact .iota (ihf ξ) (iha ξ) (h.rename ξ)

lemma subst (henv : env.Admits noFree) (h : Par env s s') {σ σ' : Nat → Skel}
    (hσ : ∀ i, Par env (σ i) (σ' i)) : Par env (s.subst σ) (s'.subst σ') := by
  have hup : ∀ {σ σ' : Nat → Skel}, (∀ i, Par env (σ i) (σ' i)) → ∀ i, Par env (up σ i) (up σ' i) := by
    intro σ σ' hσ i
    cases i with
    | zero => exact .var 0
    | succ i => exact (hσ i).rename henv _
  induction h generalizing σ σ' with
  | var i => exact hσ i
  | atom a => exact .atom a
  | app _ _ ihf iha => exact .app (ihf hσ) (iha hσ)
  | lam _ ih => exact .lam (ih (hup hσ))
  | pi _ _ iht ihb => exact .pi (iht hσ) (ihb (hup hσ))
  | beta _ _ ihf iha =>
    rw [subst_inst]
    exact .beta (ihf hσ) (iha hσ)
  | delta h =>
    rw [(h.closed henv).subst_eq_self]
    exact .delta h
  | iota _ _ h ihf iha => exact .iota (ihf hσ) (iha hσ) (h.subst σ')

lemma inst (henv : env.Admits noFree) (hb : Par env b b') (ha : Par env a a') : Par env (b.inst a) (b'.inst a') := by
  refine hb.subst henv fun i => ?_
  cases i with
  | zero => exact ha
  | succ i => exact .var i

lemma of_rename (henv : env.Admits InductiveSpec.noFree) (h : Par env (s.rename ξ) u) :
    ∃ s', u = s'.rename ξ ∧ Par env s s' := by
  induction s generalizing ξ u with
  | var i =>
    cases h with
    | var => exact ⟨.var i, rfl, .var i⟩
  | atom a =>
    cases h with
    | atom => exact ⟨.atom a, rfl, .atom a⟩
    | delta h => exact ⟨u, ((h.closed henv).rename_eq_self ξ).symm, .delta h⟩
  | app f a ihf iha =>
    cases h with
    | app hf ha =>
      obtain ⟨f', rfl, hf'⟩ := ihf hf
      obtain ⟨a', rfl, ha'⟩ := iha ha
      exact ⟨.app f' a', rfl, .app hf' ha'⟩
    | beta hf ha =>
      obtain ⟨f', hlam, hf'⟩ := ihf hf
      obtain ⟨a', rfl, ha'⟩ := iha ha
      cases f' <;> simp only [Skel.rename, reduceCtorEq, Skel.lam.injEq] at hlam
      subst hlam
      exact ⟨_, (rename_inst ξ _ a').symm, .beta hf' ha'⟩
    | iota hf ha hr =>
      obtain ⟨f', rfl, hf'⟩ := ihf hf
      obtain ⟨a', rfl, ha'⟩ := iha ha
      obtain ⟨r, rfl, hr'⟩ := hr.of_rename
      exact ⟨r, rfl, .iota hf' ha' hr'⟩
  | lam b ih =>
    cases h with
    | lam hb =>
      obtain ⟨b', rfl, hb'⟩ := ih hb
      exact ⟨.lam b', rfl, .lam hb'⟩
  | pi t b iht ihb =>
    cases h with
    | pi ht hb =>
      obtain ⟨t', rfl, ht'⟩ := iht ht
      obtain ⟨b', rfl, hb'⟩ := ihb hb
      exact ⟨.pi t' b', rfl, .pi ht' hb'⟩

end Par

/-- An atom that stays at the head of a spine of `n` arguments. -/
def Rigid (env : Env) (a : Atom) (n : Nat) : Prop :=
  (∀ s, ¬ Unfolds env a s) ∧ ∀ c vs t, a = .const c vs → env.recursorOf? c = some t → n ≤ Env.majorIndex t

lemma rigid_ctor (family : Name) (i : Nat) (vs : List (Level.Valuation → Nat)) (n : Nat) :
    Rigid env (.ctor family i vs) n :=
  ⟨fun _ h => (nomatch h), fun _ _ _ h => (nomatch h)⟩

/-- The name of neither a definition nor a recursor. -/
lemma rigid_const {d : Decl} (hd : env.get? c = some d) (hdef : ∀ v n, d.kind ≠ .definition v n)
    (hrec : ∀ t, d.kind ≠ .recursor t) (vs : List (Level.Valuation → Nat)) (n : Nat) : Rigid env (.const c vs) n := by
  refine ⟨fun s hs => ?_, fun c' vs' t hc ht => ?_⟩
  · obtain ⟨hget, hkind, _⟩ := hs
    obtain rfl := Option.some.inj (hd.symm.trans hget)
    exact hdef _ _ hkind
  · obtain ⟨rfl, _⟩ := Atom.const.inj hc
    rw [Env.recursorOf?, hd] at ht
    split at ht
    · rename_i t' hkind
      exact absurd (Option.some.inj hkind) (hrec t')
    · simp at ht

lemma rigid_recursor {t : InductiveType} (h : env.recursorOf? c = some t)
    (vs : List (Level.Valuation → Nat)) : Rigid env (.const c vs) (Env.majorIndex t) := by
  refine ⟨fun s hs => ?_, fun c' vs' t' hc ht' => ?_⟩
  · obtain ⟨hget, hkind, _⟩ := hs
    simp [Env.recursorOf?, hget, hkind] at h
  · obtain ⟨rfl, _⟩ := Atom.const.inj hc
    exact Option.some.inj (h.symm.trans ht') ▸ Nat.le_refl _

lemma Par.of_apply {a : Atom} {as : List Skel} (hrigid : Rigid env a as.length) {s : Skel}
    (h : Par env ((Skel.atom a).apply as) s) : ∃ as', s = (Skel.atom a).apply as' ∧ List.Forall₂ (Par env) as as' := by
  induction as using List.reverseRecOn generalizing s with
  | nil =>
    cases h with
    | atom => exact ⟨[], rfl, .nil⟩
    | delta h => exact absurd h (hrigid.1 s)
  | append_singleton as b ih =>
    rw [List.length_append, List.length_singleton] at hrigid
    have ih := fun {s} => @ih ⟨hrigid.1, fun c vs t hc ht => Nat.le_of_succ_le (hrigid.2 c vs t hc ht)⟩ s
    rw [apply_concat] at h
    cases h with
    | app hf hb =>
      obtain ⟨as', rfl, has⟩ := ih hf
      exact ⟨_, (apply_concat _ _ _).symm, List.rel_append has (.cons hb .nil)⟩
    | beta hf _ =>
      obtain ⟨as', hlam, _⟩ := ih hf
      exact absurd hlam.symm apply_atom_ne_lam
    | iota hf _ hr =>
      -- The recursor would have as many arguments as the spine has without its last one.
      obtain ⟨as', rfl, has⟩ := ih hf
      generalize hspine : (Skel.atom a).apply as' = f at hr
      obtain ⟨hrec, _, hargs, _⟩ := hr
      obtain ⟨rfl, rfl⟩ := apply_atom_inj hspine
      have := hrigid.2 _ _ _ rfl hrec
      have := has.length_eq
      omega

lemma Par.of_lam (h : Par env (.lam b) s) : ∃ b', s = .lam b' ∧ Par env b b' := by
  cases h with
  | lam hb => exact ⟨_, rfl, hb⟩

lemma Iota.par (h : Iota env f a r) (hf : Par env f f') (ha : Par env a a') :
    ∃ r', Iota env f' a' r' ∧ Par env r r' := by
  refine h.congr .app .atom (fun {c vs t args} hrec hargs hspine => ?_) fun {n i vs args} hspine => ?_
  · subst hspine
    exact hf.of_apply (hargs ▸ rigid_recursor hrec vs)
  · subst hspine
    exact ha.of_apply (rigid_ctor n i vs _)

lemma Iota.not_lam : ¬ Iota env (.lam b) a r := by
  intro h
  generalize hf : lam b = f at h
  obtain ⟨_⟩ := h
  exact apply_atom_ne_lam hf.symm

/-- Reducing all redexes at once goes as far as any reduction does. -/
lemma Par.exists_complete (henv : env.Admits noFree) (s : Skel) : ∃ s₁, ∀ s', Par env s s' → Par env s' s₁ := by
  induction s with
  | var i =>
    refine ⟨.var i, fun s' h => ?_⟩
    cases h with
    | var => exact .var i
  | atom a =>
    by_cases hdelta : ∃ s, Unfolds env a s
    · obtain ⟨s, hs⟩ := hdelta
      refine ⟨s, fun s' h => ?_⟩
      cases h with
      | atom => exact .delta hs
      | delta hs' => exact hs.unique hs' ▸ .refl _
    · refine ⟨.atom a, fun s' h => ?_⟩
      cases h with
      | atom => exact .atom a
      | delta hs => exact absurd ⟨_, hs⟩ hdelta
  | lam b ih =>
    obtain ⟨b₁, hb₁⟩ := ih
    refine ⟨.lam b₁, fun s' h => ?_⟩
    cases h with
    | lam hb => exact .lam (hb₁ _ hb)
  | pi t b iht ihb =>
    obtain ⟨t₁, ht₁⟩ := iht
    obtain ⟨b₁, hb₁⟩ := ihb
    refine ⟨.pi t₁ b₁, fun s' h => ?_⟩
    cases h with
    | pi ht hb => exact .pi (ht₁ _ ht) (hb₁ _ hb)
  | app f a ihf iha =>
    obtain ⟨f₁, hf₁⟩ := ihf
    obtain ⟨a₁, ha₁⟩ := iha
    -- The application becomes a redex of at most one kind: an abstraction does not reduce to a recursor.
    by_cases hlam : ∃ b, f₁ = .lam b
    · obtain ⟨b, rfl⟩ := hlam
      refine ⟨b.inst a₁, fun s' h => ?_⟩
      cases h with
      | app hf ha => exact .beta (hf₁ _ hf) (ha₁ _ ha)
      | beta hf ha =>
        cases hf₁ _ hf with
        | lam hb => exact hb.inst henv (ha₁ _ ha)
      | iota hf ha hr =>
        obtain ⟨r, hr, _⟩ := hr.par (hf₁ _ hf) (ha₁ _ ha)
        exact absurd hr Iota.not_lam
    have hbeta : ∀ b, ¬ Par env f (.lam b) := fun b hf => hlam ((hf₁ _ hf).of_lam.imp fun _ h => h.1)
    by_cases hiota : ∃ r, Iota env f₁ a₁ r
    · obtain ⟨r, hr₁⟩ := hiota
      refine ⟨r, fun s' h => ?_⟩
      cases h with
      | app hf ha => exact .iota (hf₁ _ hf) (ha₁ _ ha) hr₁
      | beta hf _ => exact absurd hf (hbeta _)
      | iota hf ha hr =>
        obtain ⟨r', hr', h⟩ := hr.par (hf₁ _ hf) (ha₁ _ ha)
        exact hr₁.unique hr' ▸ h
    · refine ⟨.app f₁ a₁, fun s' h => ?_⟩
      cases h with
      | app hf ha => exact .app (hf₁ _ hf) (ha₁ _ ha)
      | beta hf _ => exact absurd hf (hbeta _)
      | iota hf ha hr =>
        obtain ⟨r, hr, _⟩ := hr.par (hf₁ _ hf) (ha₁ _ ha)
        exact absurd ⟨r, hr⟩ hiota

/-! ## Reduction by η -/

namespace EtaPar

variable {s b : Skel}

lemma refl (s : Skel) : EtaPar s s := by
  induction s with
  | var i => exact .var i
  | atom a => exact .atom a
  | app f a ihf iha => exact .app ihf iha
  | lam b ih => exact .lam ih
  | pi t b iht ihb => exact .pi iht ihb

lemma rename (h : EtaPar s s') (ξ : Nat → Nat) : EtaPar (s.rename ξ) (s'.rename ξ) := by
  induction h generalizing ξ with
  | var i => exact .var _
  | atom a => exact .atom a
  | app _ _ ihf iha => exact .app (ihf ξ) (iha ξ)
  | lam _ ih => exact .lam (ih _)
  | pi _ _ iht ihb => exact .pi (iht ξ) (ihb _)
  | eta _ ih =>
    rw [Skel.rename, Skel.rename, shift_rename]
    exact .eta (ih ξ)

lemma subst (h : EtaPar s s') {σ σ' : Nat → Skel} (hσ : ∀ i, EtaPar (σ i) (σ' i)) :
    EtaPar (s.subst σ) (s'.subst σ') := by
  have hup : ∀ {σ σ' : Nat → Skel}, (∀ i, EtaPar (σ i) (σ' i)) → ∀ i, EtaPar (up σ i) (up σ' i) := by
    intro σ σ' hσ i
    cases i with
    | zero => exact .var 0
    | succ i => exact (hσ i).rename _
  induction h generalizing σ σ' with
  | var i => exact hσ i
  | atom a => exact .atom a
  | app _ _ ihf iha => exact .app (ihf hσ) (iha hσ)
  | lam _ ih => exact .lam (ih (hup hσ))
  | pi _ _ iht ihb => exact .pi (iht hσ) (ihb (hup hσ))
  | eta _ ih =>
    rw [Skel.subst, Skel.subst, shift_subst]
    exact .eta (ih hσ)

lemma inst (hb : EtaPar b b') (ha : EtaPar a a') : EtaPar (b.inst a) (b'.inst a') := by
  refine hb.subst fun i => ?_
  cases i with
  | zero => exact ha
  | succ i => exact .var i

/-- Reduction of a renamed skeleton is that of the skeleton, renamed. -/
lemma of_rename (h : EtaPar (s.rename ξ) u) : ∃ s', u = s'.rename ξ ∧ EtaPar s s' := by
  generalize hs : s.rename ξ = w at h
  induction h generalizing ξ s with
  | var i =>
    cases s <;> simp only [Skel.rename, reduceCtorEq] at hs
    exact ⟨_, by rw [Skel.rename, hs], .var _⟩
  | atom a =>
    cases s <;> simp only [Skel.rename, reduceCtorEq] at hs
    exact ⟨_, by rw [Skel.rename, hs], .atom _⟩
  | app _ _ ihf iha =>
    cases s <;> simp only [Skel.rename, reduceCtorEq, Skel.app.injEq] at hs
    obtain ⟨f', rfl, hf'⟩ := ihf hs.1
    obtain ⟨a', rfl, ha'⟩ := iha hs.2
    exact ⟨.app f' a', rfl, .app hf' ha'⟩
  | lam _ ih =>
    cases s <;> simp only [Skel.rename, reduceCtorEq, Skel.lam.injEq] at hs
    obtain ⟨b', rfl, hb'⟩ := ih hs
    exact ⟨.lam b', rfl, .lam hb'⟩
  | pi _ _ iht ihb =>
    cases s <;> simp only [Skel.rename, reduceCtorEq, Skel.pi.injEq] at hs
    obtain ⟨t', rfl, ht'⟩ := iht hs.1
    obtain ⟨b', rfl, hb'⟩ := ihb hs.2
    exact ⟨.pi t' b', rfl, .pi ht' hb'⟩
  | eta _ ih =>
    cases s <;> simp only [Skel.rename, reduceCtorEq, Skel.lam.injEq] at hs
    rename_i b
    cases b <;> simp only [Skel.rename, reduceCtorEq, Skel.app.injEq] at hs
    rename_i g v
    obtain ⟨w, rfl, rfl⟩ := eq_shift_of_rename_eq hs.1
    have hv : v = .var 0 := by
      have hv := hs.2
      cases v <;> simp only [Skel.rename, reduceCtorEq] at hv
      rename_i j
      cases j with
      | zero => rfl
      | succ j => simp [upRenaming] at hv
    subst hv
    obtain ⟨f', rfl, hf'⟩ := ih rfl
    exact ⟨f', rfl, .eta hf'⟩

lemma of_apply {a : Atom} {as : List Skel} {s : Skel} (h : EtaPar ((Skel.atom a).apply as) s) :
    ∃ as', s = (Skel.atom a).apply as' ∧ List.Forall₂ EtaPar as as' := by
  induction as using List.reverseRecOn generalizing s with
  | nil =>
    cases h with
    | atom => exact ⟨[], rfl, .nil⟩
  | append_singleton as b ih =>
    rw [apply_concat] at h
    cases h with
    | app hf hb =>
      obtain ⟨as', rfl, has⟩ := ih hf
      exact ⟨_, (apply_concat _ _ _).symm, List.rel_append has (.cons hb .nil)⟩

lemma of_lam (h : EtaPar (.lam b) s) :
    (∃ b', s = .lam b' ∧ EtaPar b b') ∨ ∃ f, b = .app f.shift (.var 0) ∧ EtaPar f s := by
  cases h with
  | lam hb => exact .inl ⟨_, rfl, hb⟩
  | eta hf => exact .inr ⟨_, rfl, hf⟩

/-- What the body of an η-redex reduces to is the body of one again. -/
lemma of_body (h : EtaPar (.app f.shift (.var 0)) b) : ∃ f', b = .app f'.shift (.var 0) ∧ EtaPar f f' := by
  cases h with
  | app hf ha =>
    obtain ⟨f', rfl, hf'⟩ := of_rename hf
    cases ha with
    | var => exact ⟨f', rfl, hf'⟩

lemma square (h₁ : EtaPar s s₁) (h₂ : EtaPar s s₂) : ∃ s₃, EtaPar s₁ s₃ ∧ EtaPar s₂ s₃ := by
  induction h₁ generalizing s₂ with
  | var i | atom a => exact ⟨s₂, h₂, .refl s₂⟩
  | app _ _ ihf iha =>
    cases h₂ with
    | app hf₂ ha₂ =>
      obtain ⟨f₃, hf₁₃, hf₂₃⟩ := ihf hf₂
      obtain ⟨a₃, ha₁₃, ha₂₃⟩ := iha ha₂
      exact ⟨.app f₃ a₃, .app hf₁₃ ha₁₃, .app hf₂₃ ha₂₃⟩
  | pi _ _ iht ihb =>
    cases h₂ with
    | pi ht₂ hb₂ =>
      obtain ⟨t₃, ht₁₃, ht₂₃⟩ := iht ht₂
      obtain ⟨b₃, hb₁₃, hb₂₃⟩ := ihb hb₂
      exact ⟨.pi t₃ b₃, .pi ht₁₃ hb₁₃, .pi ht₂₃ hb₂₃⟩
  | lam hb₁ ih =>
    cases h₂ with
    | lam hb₂ =>
      obtain ⟨b₃, h₁₃, h₂₃⟩ := ih hb₂
      exact ⟨.lam b₃, .lam h₁₃, .lam h₂₃⟩
    | @eta f _ hf₂ =>
      obtain ⟨f₁, rfl, _⟩ := hb₁.of_body
      obtain ⟨b₃, h₁₃, h₂₃⟩ := ih (.app (hf₂.rename _) (.var 0))
      obtain ⟨f₃, rfl, hf₁₃⟩ := of_body h₁₃
      obtain ⟨f₃', heq, hf₂₃⟩ := of_body h₂₃
      obtain rfl := shift_injective (app.inj heq).1
      exact ⟨f₃, .eta hf₁₃, hf₂₃⟩
  | eta _ ih =>
    rcases h₂.of_lam with ⟨b₂, rfl, hb₂⟩ | ⟨f', heq, hf₂⟩
    · obtain ⟨f₂, rfl, hf₂⟩ := hb₂.of_body
      obtain ⟨f₃, h₁₃, h₂₃⟩ := ih hf₂
      exact ⟨f₃, h₁₃, .eta h₂₃⟩
    · obtain rfl := shift_injective (app.inj heq).1
      exact ih hf₂

end EtaPar

lemma Iota.eta (h : Iota env f a r) (hf : EtaPar f f') (ha : EtaPar a a') :
    ∃ r', Iota env f' a' r' ∧ EtaPar r r' := by
  refine h.congr .app .atom (fun _ _ hspine => ?_) fun hspine => ?_
  · subst hspine
    exact hf.of_apply
  · subst hspine
    exact ha.of_apply

/-- Reduction by β, δ and ι commutes with that by η. -/
lemma Par.square_eta (henv : env.Admits InductiveSpec.noFree) (h₁ : Par env s s₁) (h₂ : EtaPar s s₂) :
    ∃ s₃, EtaPar s₁ s₃ ∧ Par env s₂ s₃ := by
  induction h₂ generalizing s₁ with
  | var i =>
    cases h₁ with
    | var => exact ⟨_, .var i, .var i⟩
  | atom a => exact ⟨s₁, .refl s₁, h₁⟩
  | pi _ _ iht ihb =>
    cases h₁ with
    | pi ht₁ hb₁ =>
      obtain ⟨t₃, ht₁₃, ht₂₃⟩ := iht ht₁
      obtain ⟨b₃, hb₁₃, hb₂₃⟩ := ihb hb₁
      exact ⟨.pi t₃ b₃, .pi ht₁₃ hb₁₃, .pi ht₂₃ hb₂₃⟩
  | lam _ ih =>
    cases h₁ with
    | lam hb₁ =>
      obtain ⟨b₃, h₁₃, h₂₃⟩ := ih hb₁
      exact ⟨.lam b₃, .lam h₁₃, .lam h₂₃⟩
  | app _ _ ihf iha =>
    cases h₁ with
    | app hf₁ ha₁ =>
      obtain ⟨f₃, hf₁₃, hf₂₃⟩ := ihf hf₁
      obtain ⟨a₃, ha₁₃, ha₂₃⟩ := iha ha₁
      exact ⟨.app f₃ a₃, .app hf₁₃ ha₁₃, .app hf₂₃ ha₂₃⟩
    | beta hf₁ ha₁ =>
      obtain ⟨f₃, hf₁₃, hf₂₃⟩ := ihf hf₁
      obtain ⟨a₃, ha₁₃, ha₂₃⟩ := iha ha₁
      cases hf₁₃ with
      | lam hb₁₃ => exact ⟨_, hb₁₃.inst ha₁₃, .beta hf₂₃ ha₂₃⟩
      | @eta g _ hg =>
        -- The contracted abstraction is an η-redex: contracting either way gives an application.
        refine ⟨.app f₃ a₃, ?_, .app hf₂₃ ha₂₃⟩
        show EtaPar (.app (g.shift.inst _) _) _
        rw [inst_shift]
        exact .app hg ha₁₃
    | iota hf₁ ha₁ hr₁ =>
      obtain ⟨f₃, hf₁₃, hf₂₃⟩ := ihf hf₁
      obtain ⟨a₃, ha₁₃, ha₂₃⟩ := iha ha₁
      obtain ⟨r₃, hr₃, hr₁₃⟩ := hr₁.eta hf₁₃ ha₁₃
      exact ⟨r₃, hr₁₃, .iota hf₂₃ ha₂₃ hr₃⟩
  | @eta f _ _ ih =>
    cases h₁ with
    | lam hb₁ =>
      cases hb₁ with
      | app hf₁ ha₁ =>
        obtain ⟨f₁, rfl, hf⟩ := Par.of_rename henv hf₁
        obtain ⟨f₃, h₁₃, h₂₃⟩ := ih hf
        cases ha₁ with
        | var => exact ⟨f₃, .eta h₁₃, h₂₃⟩
      | beta hf₁ ha₁ =>
        obtain ⟨f₁, hlam, hf⟩ := Par.of_rename henv hf₁
        cases f₁ <;> simp only [Skel.rename, reduceCtorEq, Skel.lam.injEq] at hlam
        subst hlam
        cases ha₁ with
        | var =>
          rw [inst_var_zero]
          exact ih hf
      | iota _ ha₁ hr₁ =>
        cases ha₁ with
        | var =>
          generalize ha : Skel.var 0 = a at hr₁
          obtain ⟨_⟩ := hr₁
          exact absurd ha.symm apply_atom_ne_var

/-! ## Confluence -/

/-- Parallel reduction of either kind. -/
def Red (env : Env) (s s' : Skel) : Prop :=
  Par env s s' ∨ EtaPar s s'

lemma Red.square (henv : env.Admits noFree) (h₁ : Red env s s₁) (h₂ : Red env s s₂) :
    ∃ s₃, Red env s₁ s₃ ∧ Red env s₂ s₃ := by
  rcases h₁ with h₁ | h₁ <;> rcases h₂ with h₂ | h₂
  · obtain ⟨s₃, hs₃⟩ := Par.exists_complete henv s
    exact ⟨s₃, .inl (hs₃ _ h₁), .inl (hs₃ _ h₂)⟩
  · obtain ⟨s₃, h₁₃, h₂₃⟩ := h₁.square_eta henv h₂
    exact ⟨s₃, .inr h₁₃, .inl h₂₃⟩
  · obtain ⟨s₃, h₂₃, h₁₃⟩ := h₂.square_eta henv h₁
    exact ⟨s₃, .inl h₁₃, .inr h₂₃⟩
  · obtain ⟨s₃, h₁₃, h₂₃⟩ := h₁.square h₂
    exact ⟨s₃, .inr h₁₃, .inr h₂₃⟩

/-- Skeletons that reduce to the same one. -/
def Joins (env : Env) : Skel → Skel → Prop :=
  Relation.Join (Relation.ReflTransGen (Red env))

/-- Reduction is confluent, so skeletons with a common reduct form equivalence classes. -/
lemma joins_equivalence (henv : env.Admits noFree) : Equivalence (Joins env) :=
  Relation.equivalence_join_reflTransGen fun _ _ _ h₁ h₂ => by
    obtain ⟨s₃, h₁₃, h₂₃⟩ := h₁.square henv h₂
    exact ⟨s₃, .single h₁₃, .single h₂₃⟩

end Skel

end ProofAssistant
