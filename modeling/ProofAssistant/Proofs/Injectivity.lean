import ProofAssistant.Proofs.Convertibility
import ProofAssistant.Proofs.ParallelReduction

/-!
# Shapes of convertible terms

Terms are convertible exactly if their skeletons have a common reduct (`Env.conv_iff_joins`): a reduction
of the skeleton of a term comes from one of the term, up to conversion, and terms with the same skeleton
are convertible. Since reduction of skeletons keeps products, sorts and spines with a rigid head, so does
conversion:
-/

namespace ProofAssistant

open Term InductiveSpec List Level

variable {a : Atom}

open Relation

namespace Skel

variable {env : Env}
variable {b : Skel}

namespace Joins

variable {s s' : Skel}

lemma of_red (h : Red env s s') : Joins env s s' :=
  ⟨s', .single h, .refl⟩

lemma of_eq (h : s = s') : Joins env s s' :=
  ⟨s', h ▸ .refl, .refl⟩

/-- A construction of skeletons that parallel reduction goes through keeps joins. -/
lemma map {g : Skel → Skel} (hg : ∀ s s', Red env s s' → Red env (g s) (g s')) (h : Joins env s s') :
    Joins env (g s) (g s') := by
  obtain ⟨u, hu, hu'⟩ := h
  exact ⟨g u, ReflTransGen.lift g hg _ _ hu, ReflTransGen.lift g hg _ _ hu'⟩

lemma app (henv : env.Admits noFree) {f f' a a' : Skel} (hf : Joins env f f')
    (ha : Joins env a a') : Joins env (.app f a) (.app f' a') := by
  refine (joins_equivalence henv).trans (map (g := (Skel.app · a)) (fun _ _ h => ?_) hf)
    (map (fun _ _ h => ?_) ha)
  · exact h.imp (fun h => .app h (.refl a)) (fun h => .app h (.refl a))
  · exact h.imp (fun h => .app (.refl f') h) (fun h => .app (.refl f') h)

lemma lam {b' : Skel} (hb : Joins env b b') : Joins env (.lam b) (.lam b') :=
  map (fun _ _ h => h.imp .lam .lam) hb

lemma pi (henv : env.Admits noFree) {t t' b' : Skel} (ht : Joins env t t') (hb : Joins env b b') :
    Joins env (.pi t b) (.pi t' b') := by
  refine (joins_equivalence henv).trans (map (g := (Skel.pi · b)) (fun _ _ h => ?_) ht)
    (map (fun _ _ h => ?_) hb)
  · exact h.imp (fun h => .pi h (.refl b)) (fun h => .pi h (.refl b))
  · exact h.imp (fun h => .pi (.refl t') h) (fun h => .pi (.refl t') h)

end Joins

lemma of_reds_pi {t s : Skel} (h : ReflTransGen (Red env) (.pi t b) s) :
    ∃ t' b', s = .pi t' b' ∧ ReflTransGen (Red env) t t' ∧ ReflTransGen (Red env) b b' := by
  induction h with
  | refl => exact ⟨t, b, rfl, .refl, .refl⟩
  | tail _ h ih =>
    obtain ⟨t', b', rfl, ht, hb⟩ := ih
    rcases h with h | h
    · cases h with
      | pi ht' hb' => exact ⟨_, _, rfl, ht.tail (.inl ht'), hb.tail (.inl hb')⟩
    · cases h with
      | pi ht' hb' => exact ⟨_, _, rfl, ht.tail (.inr ht'), hb.tail (.inr hb')⟩

lemma of_reds_apply {as : List Skel} (hrigid : Rigid env a as.length) {s : Skel}
    (h : ReflTransGen (Red env) ((atom a).apply as) s) :
    ∃ as', s = (atom a).apply as' ∧ List.Forall₂ (ReflTransGen (Red env)) as as' := by
  have htail : ∀ {R : Skel → Skel → Prop}, (∀ s s', R s s' → Red env s s') → ∀ {as as' as'' : List Skel},
      List.Forall₂ (ReflTransGen (Red env)) as as' → List.Forall₂ R as' as'' →
      List.Forall₂ (ReflTransGen (Red env)) as as'' := by
    intro R hR as as' as'' h h'
    induction h generalizing as'' with
    | nil => cases h'; exact .nil
    | cons ha _ ih =>
      cases h' with
      | cons ha' h' => exact .cons (ha.tail (hR _ _ ha')) (ih h')
  induction h with
  | refl => exact ⟨as, rfl, forall₂_same.mpr fun _ _ => .refl⟩
  | tail _ h ih =>
    obtain ⟨as', rfl, has⟩ := ih
    rcases h with h | h
    · obtain ⟨as'', rfl, has'⟩ := h.of_apply (has.length_eq ▸ hrigid)
      exact ⟨as'', rfl, htail (fun _ _ => .inl) has has'⟩
    · obtain ⟨as'', rfl, has'⟩ := h.of_apply
      exact ⟨as'', rfl, htail (fun _ _ => .inr) has has'⟩

end Skel

namespace Env

variable {env : Env}
variable {m m' : Term} {s : Skel}

/-! ## From terms to skeletons -/

lemma erase_calls (k : Constructor) (recursor : Term) (fields : List Term) :
    (k.calls recursor fields).map erase = Skel.calls k recursor.erase (fields.map erase) := by
  rw [Constructor.calls, Skel.calls, zip_map_left, filter_map, List.map_map, List.map_map]
  rfl

lemma Contracts.par (h : env.Contracts m m') : Skel.Par env m.erase m'.erase := by
  cases h with
  | beta x t b a =>
    rw [erase_instantiate]
    exact .beta (.refl _) (.refl _)
  | delta hget hkind hlen => exact .delta (.mk hget hkind hlen)
  | iota hrec hk hargs hparams hfields hminor =>
    rw [erase, erase_apply, erase_apply, erase_apply, map_append, map_append, erase_calls, erase_apply]
    exact .iota (.refl _) (.refl _) (.mk hrec hk (by simpa using hargs) (by simpa using hparams)
      (by simpa using hfields) (by simp [hminor]))

lemma Conv.joins (henv : env.Admits noFree) (h : env.Conv m m') : Skel.Joins env m.erase m'.erase := by
  induction h with
  | refl m => exact .of_eq rfl
  | symm _ ih => exact (Skel.joins_equivalence henv).symm ih
  | trans _ _ ih ih' => exact (Skel.joins_equivalence henv).trans ih ih'
  | contract h => exact .of_red (.inl h.par)
  | eta x t f =>
    rw [erase, erase, erase_shift]
    exact .of_red (.inr (.eta (.refl _)))
  | sort h => exact .of_eq (congrArg (Skel.atom <| .sort ·) (meaning_eq_iff.mpr h))
  | @const c _ _ h => exact .of_eq (congrArg (Skel.atom <| .const c ·) (map_meaning_eq_iff.mpr h))
  | @ctor t _ _ i _ _ h =>
    exact .of_eq (congrArg (Skel.atom <| .ctor t i ·) (map_meaning_eq_iff.mpr h))
  | hole h d d' => exact .of_eq rfl
  | app _ _ ihf iha => exact .app henv ihf iha
  | lam _ _ _ ihb => exact .lam ihb
  | pi _ _ iht ihb => exact .pi henv iht ihb

/-! ## From skeletons to terms -/

/-- The type of an abstracted variable does not matter: both sides expand to the same abstraction. -/
lemma Conv.lam_any (x x' : Name) (t t' b : Term) : env.Conv (.lam x t b) (.lam x' t' b) := by
  have hbody : env.Conv (.app (Term.lam x t b).shift (.var 0)) b := by
    have hbeta : env.Conv _ ((b.rename (upRenaming (· + 1))).instantiate (.var 0)) :=
      .contract (.beta x t.shift (b.rename (upRenaming (· + 1))) (.var 0))
    rwa [Term.instantiate_var_zero] at hbeta
  exact (Conv.eta x' t' (.lam x t b)).symm.trans (.lam (.refl t') hbody)

lemma Conv.of_erase_eq (h : m.erase = m'.erase) : env.Conv m m' := by
  induction m generalizing m' with
  | var i =>
    cases m' <;> simp only [erase, reduceCtorEq, Skel.var.injEq] at h
    exact h ▸ .refl _
  | sort l =>
    cases m' <;> simp only [erase, reduceCtorEq, Skel.atom.injEq, Atom.sort.injEq] at h
    exact .sort (meaning_eq_iff.mp h)
  | const c ls =>
    cases m' <;> simp only [erase, reduceCtorEq, Skel.atom.injEq, Atom.const.injEq] at h
    obtain ⟨rfl, h⟩ := h
    exact .const (map_meaning_eq_iff.mp h)
  | ctor t i n ls =>
    cases m' <;> simp only [erase, reduceCtorEq, Skel.atom.injEq, Atom.ctor.injEq] at h
    obtain ⟨rfl, rfl, h⟩ := h
    exact .ctor (map_meaning_eq_iff.mp h)
  | app f a ihf iha =>
    cases m' <;> simp only [erase, reduceCtorEq, Skel.app.injEq] at h
    exact .app (ihf h.1) (iha h.2)
  | lam x t b _ ihb =>
    cases m' <;> simp only [erase, reduceCtorEq, Skel.lam.injEq] at h
    exact (Conv.lam (.refl t) (ihb h)).trans (.lam_any x _ t _ _)
  | pi x i t b iht ihb =>
    cases m' <;> simp only [erase, reduceCtorEq, Skel.pi.injEq] at h
    exact .pi (iht h.1) (ihb h.2)
  | free x =>
    cases m' <;> simp only [erase, reduceCtorEq, Skel.atom.injEq, Atom.free.injEq] at h
    exact h ▸ .refl _
  | hole x d =>
    cases m' <;> simp only [erase, reduceCtorEq, Skel.atom.injEq, Atom.hole.injEq] at h
    exact h ▸ .hole _ _ _

/-- Maps that lead to levels of the same meaning, for what occurs in a term, give convertible terms. -/
lemma Conv.mapLevels_congr {S : Scope} {k : Nat} {f g : Level → Level} (hm : m.In S k)
    (hlevel : ∀ l, S.level l → (f l).Same (g l)) (hconst : ∀ c ls, S.const c ls → ∀ l ∈ ls, (f l).Same (g l))
    (hctor : ∀ t i ls, S.ctor t i ls → ∀ l ∈ ls, (f l).Same (g l)) : env.Conv (m.mapLevels f) (m.mapLevels g) :=
  .of_erase_eq (erase_mapLevels_congr hm hlevel hconst hctor)

lemma exists_conv_of_unfolds (h : Skel.Unfolds env a s) (hm : m.erase = .atom a) :
    ∃ m', m'.erase = s ∧ env.Conv m m' := by
  obtain @⟨c, ls, d, value, height, hget, hkind, hlen⟩ := h
  cases m <;> simp only [erase, reduceCtorEq, Skel.atom.injEq, Atom.const.injEq] at hm
  rename_i c' ls'
  obtain ⟨rfl, hls⟩ := hm
  have hlen' : d.levelParams.length = ls'.length := hlen.trans (by simpa using congrArg List.length hls.symm)
  exact ⟨_, Skel.Unfolds.unique (.mk hget hkind hlen') (hls ▸ .mk hget hkind hlen), .contract (.delta hget hkind hlen')⟩

lemma exists_conv_of_iota {f a : Term} {r : Skel} (h : Skel.Iota env f.erase a.erase r) :
    ∃ m', m'.erase = r ∧ env.Conv (.app f a) m' := by
  generalize hf : f.erase = f' at h
  generalize ha : a.erase = a' at h
  obtain @⟨c, vs, vs', t, i, k, args, params, fields, minor, hrec, hk, hargs, hparams, hfields, hminor⟩ := h
  obtain ⟨hd, ms, rfl, hhd, rfl⟩ := exists_of_erase_eq_apply hf
  obtain ⟨hd', ms', rfl, hhd', hms'⟩ := exists_of_erase_eq_apply ha
  obtain ⟨ps, fs, rfl, rfl, rfl⟩ := map_eq_append_iff.mp hms'
  obtain ⟨m, hm, rfl⟩ : ∃ m : Term, ms[t.numParams + 1 + i]? = some m ∧ m.erase = minor := by
    simpa using hminor
  cases hd <;> simp only [erase, reduceCtorEq, Skel.atom.injEq] at hhd
  cases hd' <;> simp only [erase, reduceCtorEq, Skel.atom.injEq] at hhd'
  obtain ⟨rfl, rfl⟩ := hhd
  obtain ⟨rfl, rfl, rfl⟩ := hhd'
  refine ⟨_, ?_, .contract (.iota hrec hk (by simpa using hargs) (by simpa using hparams)
    (by simpa using hfields) hm)⟩
  rw [erase_apply, map_append, erase_calls, erase_apply, erase]

/-- A reduction of the skeleton of a term comes from a conversion of the term. -/
lemma exists_conv_of_par (h : Skel.Par env m.erase s) : ∃ m', m'.erase = s ∧ env.Conv m m' := by
  generalize hm : m.erase = u at h
  induction h generalizing m with
  | var i => exact ⟨m, hm, .refl m⟩
  | atom a => exact ⟨m, hm, .refl m⟩
  | delta h => exact exists_conv_of_unfolds h hm
  | app _ _ ihf iha =>
    cases m <;> simp only [erase, reduceCtorEq, Skel.app.injEq] at hm
    obtain ⟨f', rfl, hf⟩ := ihf hm.1
    obtain ⟨a', rfl, ha⟩ := iha hm.2
    exact ⟨.app f' a', rfl, .app hf ha⟩
  | lam _ ih =>
    cases m <;> simp only [erase, reduceCtorEq, Skel.lam.injEq] at hm
    rename_i x t b
    obtain ⟨b', rfl, hb⟩ := ih hm
    exact ⟨.lam x t b', rfl, .lam (.refl t) hb⟩
  | pi _ _ iht ihb =>
    cases m <;> simp only [erase, reduceCtorEq, Skel.pi.injEq] at hm
    rename_i x i t b
    obtain ⟨t', rfl, ht⟩ := iht hm.1
    obtain ⟨b', rfl, hb⟩ := ihb hm.2
    exact ⟨.pi x i t' b', rfl, .pi ht hb⟩
  | beta _ _ ihf iha =>
    cases m <;> simp only [erase, reduceCtorEq, Skel.app.injEq] at hm
    obtain ⟨f', hf', hf⟩ := ihf hm.1
    obtain ⟨a', rfl, ha⟩ := iha hm.2
    cases f' <;> simp only [erase, reduceCtorEq, Skel.lam.injEq] at hf'
    subst hf'
    exact ⟨_, erase_instantiate _ a', (hf.app ha).trans (.contract (.beta _ _ _ _))⟩
  | iota _ _ hr ihf iha =>
    cases m <;> simp only [erase, reduceCtorEq, Skel.app.injEq] at hm
    obtain ⟨f', rfl, hf⟩ := ihf hm.1
    obtain ⟨a', rfl, ha⟩ := iha hm.2
    obtain ⟨m', rfl, hm'⟩ := exists_conv_of_iota hr
    exact ⟨m', rfl, (hf.app ha).trans hm'⟩

/-- An η-redex among skeletons is one among terms, up to conversion. -/
lemma exists_conv_of_etaPar (h : Skel.EtaPar m.erase s) : ∃ m', m'.erase = s ∧ env.Conv m m' := by
  generalize hm : m.erase = u at h
  induction h generalizing m with
  | var i => exact ⟨m, hm, .refl m⟩
  | atom a => exact ⟨m, hm, .refl m⟩
  | app _ _ ihf iha =>
    cases m <;> simp only [erase, reduceCtorEq, Skel.app.injEq] at hm
    obtain ⟨f', rfl, hf⟩ := ihf hm.1
    obtain ⟨a', rfl, ha⟩ := iha hm.2
    exact ⟨.app f' a', rfl, .app hf ha⟩
  | lam _ ih =>
    cases m <;> simp only [erase, reduceCtorEq, Skel.lam.injEq] at hm
    rename_i x t b
    obtain ⟨b', rfl, hb⟩ := ih hm
    exact ⟨.lam x t b', rfl, .lam (.refl t) hb⟩
  | pi _ _ iht ihb =>
    cases m <;> simp only [erase, reduceCtorEq, Skel.pi.injEq] at hm
    rename_i x i t b
    obtain ⟨t', rfl, ht⟩ := iht hm.1
    obtain ⟨b', rfl, hb⟩ := ihb hm.2
    exact ⟨.pi x i t' b', rfl, .pi ht hb⟩
  | @eta f _ _ ih =>
    cases m <;> simp only [erase, reduceCtorEq, Skel.lam.injEq] at hm
    rename_i x t b
    -- The function of the redex may mention the variable where its skeleton does not, in the type of an
    -- abstraction; there it is replaced by any term.
    have hinst : ((b.instantiate .prop).erase) = .app f (.atom (.sort Level.zero.meaning)) := by
      rw [erase_instantiate, hm]
      show Skel.app (f.shift.inst _) _ = _
      rw [Skel.inst_shift]
      rfl
    generalize b.instantiate .prop = b' at hinst
    cases b' <;> simp only [erase, reduceCtorEq, Skel.app.injEq] at hinst
    rename_i g _
    obtain ⟨m', rfl, hg⟩ := ih hinst.1
    refine ⟨m', rfl, Conv.trans (.of_erase_eq ?_) ((Conv.eta x t g).trans hg)⟩
    rw [erase, erase, erase, erase_shift, hinst.1, hm, erase]

lemma exists_conv_of_reds (h : ReflTransGen (Skel.Red env) m.erase s) : ∃ m', m'.erase = s ∧ env.Conv m m' := by
  induction h with
  | refl => exact ⟨m, rfl, .refl m⟩
  | tail _ h ih =>
    obtain ⟨m', rfl, hm⟩ := ih
    obtain ⟨m'', rfl, hm'⟩ := h.elim exists_conv_of_par exists_conv_of_etaPar
    exact ⟨m'', rfl, hm.trans hm'⟩

/-- Terms are convertible exactly if their skeletons have a common reduct. -/
lemma conv_iff_joins (henv : env.Admits noFree) : env.Conv m m' ↔ Skel.Joins env m.erase m'.erase := by
  refine ⟨Conv.joins henv, fun ⟨s, hs, hs'⟩ => ?_⟩
  obtain ⟨n, rfl, hn⟩ := exists_conv_of_reds hs
  obtain ⟨n', hn', hm'⟩ := exists_conv_of_reds hs'
  exact (hn.trans (.of_erase_eq hn'.symm)).trans hm'.symm

/-! ## Injectivity -/

lemma Conv.pi_inj (henv : env.Admits noFree) {x x' : Name} {i i' : Bool} {t t' b b' : Term}
    (h : env.Conv (.pi x i t b) (.pi x' i' t' b')) : env.Conv t t' ∧ env.Conv b b' := by
  obtain ⟨s, hs, hs'⟩ := h.joins henv
  obtain ⟨t₁, b₁, rfl, ht, hb⟩ := Skel.of_reds_pi hs
  obtain ⟨t₂, b₂, heq, ht', hb'⟩ := Skel.of_reds_pi hs'
  obtain ⟨rfl, rfl⟩ := Skel.pi.inj heq
  exact ⟨(conv_iff_joins henv).mpr ⟨_, ht, ht'⟩, (conv_iff_joins henv).mpr ⟨_, hb, hb'⟩⟩

/-- Convertible spines with rigid heads have the same head and convertible arguments. -/
lemma Conv.apply_inj (henv : env.Admits noFree) {as as' : List Term} {a' : Atom}
    (hm : m.erase = .atom a) (hm' : m'.erase = .atom a') (hrigid : Skel.Rigid env a as.length)
    (hrigid' : Skel.Rigid env a' as'.length) (h : env.Conv (m.apply as) (m'.apply as')) :
    a = a' ∧ List.Forall₂ env.Conv as as' := by
  obtain ⟨s, hs, hs'⟩ := h.joins henv
  rw [erase_apply, hm] at hs
  rw [erase_apply, hm'] at hs'
  obtain ⟨bs, rfl, hbs⟩ := Skel.of_reds_apply (by simpa using hrigid) hs
  obtain ⟨bs', heq, hbs'⟩ := Skel.of_reds_apply (by simpa using hrigid') hs'
  obtain ⟨rfl, rfl⟩ := Skel.apply_atom_inj heq
  refine ⟨rfl, ?_⟩
  rw [forall₂_map_left_iff] at hbs hbs'
  have hlen : as.length = as'.length := hbs.length_eq.trans hbs'.length_eq.symm
  refine forall₂_iff_get.mpr ⟨hlen, fun i hi hi' => (conv_iff_joins henv).mpr ⟨bs.get ⟨i, ?_⟩, ?_, ?_⟩⟩
  · exact hbs.length_eq ▸ hi
  · exact hbs.get hi _
  · exact hbs'.get hi' _

lemma Conv.sort_inj (henv : env.Admits InductiveSpec.noFree) {l l' : Level}
    (h : env.Conv (.sort l) (.sort l')) : l.Same l' := by
  have hrigid : ∀ v, Skel.Rigid env (.sort v) 0 := fun v =>
    ⟨fun _ h => (nomatch h), fun _ _ _ h => (nomatch h)⟩
  have h : env.Conv ((Term.sort l).apply []) ((Term.sort l').apply []) := h
  exact Level.meaning_eq_iff.mp (Atom.sort.inj (h.apply_inj henv rfl rfl (hrigid _) (hrigid _)).1)

end Env

end ProofAssistant
