import ProofAssistant.Proofs.GroundUnification
import ProofAssistant.Proofs.TelescopeInstances

/-!
# Types that are read off

For a term that is typed, what `Env.typeOf` reads off is one of its types, and so is the sort that `Env.sortOf` finds.

The judgement gives a constant the type of a declaration that is no constructor, and a constructor may have been
declared under the same name after it. So the names in the term must not stand for constructors (`Env.resolved`), as in
every term that the checker has accepted.
-/

namespace ProofAssistant

variable {next k : Nat} {l : Level}

namespace Env

open Fueled InductiveSpec

/-- The names of constants stand for declarations that are no constructors. -/
def resolved (env : Env) : Scope where
  const c _ := ∃ d, env.get? c = some d ∧ ∀ t i, d.kind ≠ .constructor t i

variable {env : Env} {ps : List Name} {Γ : Context} {Δ : List Term} {s : Supply} {μ : Metas}

lemma Infers.resolved {m T : Term} (h : env.Infers ps next Γ m T)
    (hm : m.In { free := fun x => x.number < next } k) : m.In env.resolved 0 := by
  induction h generalizing k with
  | free _ => trivial
  | sort _ => trivial
  | const hget hkind _ _ => exact ⟨_, hget, hkind⟩
  | ctor _ _ _ _ => trivial
  | app _ _ _ _ ihf iha => exact ⟨ihf hm.1, iha hm.2⟩
  | @lam next _ Γ x t b _ _ _ _ _ _ iht ihb | @pi next _ _ Γ x _ t b _ _ _ _ _ _ _ _ iht ihb =>
    refine ⟨iht hm.1, ?_⟩
    have hbody := (ihb (below_opened hm.2 x t)).of_instantiate_free hm.2 (Nat.lt_irrefl next)
    exact hbody.widen { free := fun _ _ => trivial }

lemma HasType.ground {strict : Prop} (hΓ : ∀ x ∈ Γ.ids, x.number < next) {m T : Term}
    (h : env.HasType strict ps Γ Δ m T) : m.In (env.ground next) Δ.length := by
  induction h with
  | @var Δ i A hb =>
    have hvar : env.HasType strict ps Γ Δ (.var i) A := .var hb
    exact hvar.in_scope
  | free hget => exact hΓ _ (Context.mem_ids_of_get? hget)
  | sort hl => exact hl.1
  | const _ _ _ _ hls => exact fun l hl => (hls l hl).1
  | ctor ht _ hlen hls => exact ⟨⟨_, ht, hlen⟩, fun l hl => (hls l hl).1⟩
  | app _ _ ihf iha => exact ⟨ihf, iha⟩
  | lam _ _ iht ihb => exact ⟨iht, ihb⟩
  | pi _ _ iht ihb => exact ⟨iht, ihb⟩
  | conv _ _ _ ih _ => exact ih

lemma HasType.opened (henv : env.WellTyped) (hΓ : env.ContextTyped ps Γ)
    (hnext : ∀ x ∈ Γ.ids, x.number < next) (x : Name) {t b B : Term}
    (ht : env.HasType True ps Γ [] t (.sort l)) (hb : env.HasType True ps Γ [t] b B) :
    env.ContextTyped ps (Γ.push (.new next x t)) ∧ (∀ y ∈ (Γ.push (.new next x t)).ids, y.number < next + 1) ∧
      env.HasType True ps (Γ.push (.new next x t)) [] (b.instantiate (Local.new next x t).term)
        (B.instantiate (Local.new next x t).term) ∧
      ∀ B', env.HasType True ps (Γ.push (.new next x t)) [] (b.instantiate (Local.new next x t).term) B' →
        env.HasType True ps Γ [t] b (B'.replace (.abstracted (Local.new next x t).id)) ∧ B'.In {} 0 := by
  have hfresh : (Local.new next x t).id ∉ Γ.ids := fun hmem => Nat.lt_irrefl _ (hnext _ hmem)
  have hentries := Γ.entries_push (.new next x t)
  have hadd : env.ContextTyped ps (Γ.add (.new next x t)) := hΓ.add henv.inScope hfresh ⟨l, ht⟩
  have hpush : env.ContextTyped ps (Γ.push (.new next x t)) := hadd.of_entries henv.inScope hentries.symm
  have hterm : env.HasType True ps (Γ.add (.new next x t)) [] (Local.new next x t).term t :=
    .free (h := .new next x t) (by simp [Context.get?_add])
  have hbody := (hb.within henv.inScope hΓ.inScope hadd.inScope (Context.within_add hfresh)).instantiate henv.inScope
    hadd.inScope hterm
  refine ⟨hpush, ?_, hbody.within henv.inScope hadd.inScope hpush.inScope (Context.within_of_entries hentries.symm),
    fun B' hB' => ⟨?_, ?_⟩⟩
  · have hids : (Γ.push (.new next x t)).ids = (Γ.add (.new next x t)).ids := Local.ids_of_entries hentries
    rw [hids]
    exact Context.below_add hnext rfl
  · have hback := hB'.within henv.inScope hpush.inScope hadd.inScope (Context.within_of_entries hentries)
    have habs := hback.abstract henv.inScope hΓ.inScope hfresh ht.in_scope
    rwa [Local.term, Term.replace_abstracted hb.in_scope hfresh] at habs
  · obtain ⟨_, hsort⟩ := hB'.valid henv hpush bindersTyped_nil
    exact hsort.in_scope.widen { free := fun _ _ => trivial }

section ReadOff

variable (henv : env.WellTyped) (hiota : env.IotaTyped)
include henv hiota

/-- The type of a term may be reduced as far as it is known: it has neither holes nor metavariables. -/
lemma HasType.of_whnfOf (hΓ : env.ContextTyped ps Γ) {fuel : Nat} (hnext : ∀ x ∈ Γ.ids, x.number < next)
    {m T T' : Term} (h : env.HasType True ps Γ [] m T) (hwhnf : env.whnfOf μ fuel T = some T') :
    env.HasType True ps Γ [] m T' := by
  obtain ⟨l, hT⟩ := h.valid henv hΓ bindersTyped_nil
  rw [whnfOf, instantiate_ground μ (hT.ground hnext)] at hwhnf
  have hsteps := steps_of_whnf hwhnf
  exact h.conv_type (.of_steps hsteps) ⟨l, hT.steps henv hiota hΓ bindersTyped_nil hsteps⟩

private lemma hasType_of_fuel (fuel : Nat) :
    (∀ next Γ m A T, env.ContextTyped ps Γ → (∀ x ∈ Γ.ids, x.number < next) → m.In env.resolved 0 →
      env.HasType True ps Γ [] m A → (env.typeOf s μ fuel next Γ m).Yields T → env.HasType True ps Γ [] m T) ∧
    ∀ next Γ m A l, env.ContextTyped ps Γ → (∀ x ∈ Γ.ids, x.number < next) → m.In env.resolved 0 →
      env.HasType True ps Γ [] m A → (env.sortOf s μ fuel next Γ m).Yields l →
      env.HasType True ps Γ [] m (.sort l) := by
  have hopened {next k : Nat} {b : Term} (x : Name) (t : Term) (hb : b.In env.resolved (k + 1)) :
      (b.instantiate (Local.new next x t).term).In env.resolved k := hb.instantiate trivial
  induction fuel with
  | zero => exact ⟨fun _ _ _ _ _ _ _ _ _ h => absurd h not_yields_exhausted,
      fun _ _ _ _ _ _ _ _ _ h => absurd h not_yields_exhausted⟩
  | succ fuel ih =>
    refine ⟨fun next Γ m A T hΓ hnext hm hA h => ?_, fun next Γ m A l hΓ hnext hm hA h => ?_⟩
    · cases m with
      | var i => exact absurd h not_yields_throw
      | hole h' d => exact (hA.ground hnext).elim
      | sort l =>
        obtain rfl := yields_pure.mp h
        exact .sort hA.sort_inv.1
      | free x =>
        simp only [typeOf] at h
        split at h
        · rename_i y hy
          obtain rfl := yields_pure.mp h
          exact .free hy
        · exact absurd h not_yields_throw
      | const c ls =>
        obtain ⟨d, hd, hkind⟩ := hm
        simp only [typeOf, hd] at h
        obtain rfl := yields_pure.mp h
        obtain ⟨d', hd', hname, hkind', hlen, hls, _⟩ := hA.const_inv
        obtain rfl := henv.unique d (List.mem_of_find?_eq_some hd) d' hd' hkind hkind' ((name_of_get? hd).trans hname.symm)
        exact .const hd' hname hkind hlen hls
      | ctor t i n ls =>
        obtain ⟨t', k, ht, hk, hlen, hls, _⟩ := hA.ctor_inv
        simp only [typeOf, ht, hk, Option.bind_some, Option.map_some] at h
        obtain rfl := yields_pure.mp h
        exact .ctor ht hk hlen hls
      | app f a =>
        simp only [typeOf, yields_bind, yields_ofOption] at h
        obtain ⟨F, hF, F', hwhnf, h⟩ := h
        obtain ⟨_, _, t', b', hf, ha, _⟩ := hA.app_inv
        have hf' := (ih.1 _ _ _ _ _ hΓ hnext hm.1 hf hF).of_whnfOf henv hiota hΓ hnext hwhnf
        split at h
        · obtain rfl := yields_pure.mp h
          obtain ⟨_, hpi⟩ := hf'.valid henv hΓ bindersTyped_nil
          obtain ⟨l, _, ht, _, _⟩ := hpi.pi_inv
          have hconv := ((hf.unique henv hf').pi_inj henv.admits_noFree).1
          exact .app hf' (ha.conv_type hconv ⟨l, ht⟩)
        · exact absurd h not_yields_throw
      | lam x t b =>
        simp only [typeOf, yields_bind] at h
        obtain ⟨B, hB, h⟩ := h
        obtain rfl := yields_pure.mp h
        obtain ⟨l, B', ht, hb, _⟩ := hA.lam_inv
        obtain ⟨hΓ', hnext', hbody, hclose⟩ := HasType.opened henv hΓ hnext x ht hb
        obtain ⟨hb', hin⟩ := hclose B (ih.1 _ _ _ _ _ hΓ' hnext' (hopened x t hm.2) hbody hB)
        rw [Term.close_eq_abstracted hin]
        exact .lam ht hb'
      | pi x i t b =>
        simp only [typeOf, yields_bind] at h
        obtain ⟨l, hl, l', hl', h⟩ := h
        obtain rfl := yields_pure.mp h
        obtain ⟨l₁, l₂, ht, hb, _⟩ := hA.pi_inv
        obtain ⟨hΓ', hnext', hbody, hclose⟩ := HasType.opened henv hΓ hnext x ht hb
        have ht' := ih.2 _ _ _ _ _ hΓ hnext hm.1 ht hl
        exact .pi ht' (hclose (.sort l') (ih.2 _ _ _ _ _ hΓ' hnext' (hopened x t hm.2) hbody hl')).1
    · simp only [sortOf, yields_bind, yields_ofOption] at h
      obtain ⟨T, hT, T', hwhnf, h⟩ := h
      have hT' := (ih.1 _ _ _ _ _ hΓ hnext hm hA hT).of_whnfOf henv hiota hΓ hnext hwhnf
      split at h
      · obtain rfl := yields_pure.mp h
        exact hT'
      · exact absurd h not_yields_throw

variable {next fuel : Nat} {m A : Term} (hΓ : env.ContextTyped ps Γ) (hnext : ∀ x ∈ Γ.ids, x.number < next)
  (hm : m.In env.resolved 0) (hA : env.HasType True ps Γ [] m A)
include hΓ hnext hm hA

lemma hasType_of_sortOf (h : (env.sortOf s μ fuel next Γ m).Yields l) :
    env.HasType True ps Γ [] m (.sort l) :=
  (hasType_of_fuel henv hiota fuel).2 next Γ m A l hΓ hnext hm hA h

end ReadOff

end Env

end ProofAssistant
