import Mathlib.Tactic.Lemma
import ProofAssistant.Level

/-!
# Levels at arguments

A level is admitted by a list of universe parameters if it has no metavariables and no other parameters.
On such levels the replacement of the parameters by arguments composes
(`Level.Admitted.put_instantiateParams`), leads to levels that the arguments' own parameters admit
(`Level.Admitted.instantiateParams`), and does not see a parameter that is not in the list
(`Level.Admitted.instantiateParams_cons`).
-/

namespace ProofAssistant

open List Level

namespace Level

variable {ps ps' : List Name} {l : Level} {p : Name} {args : List Level}

/-- A level without metavariables, whose parameters are among those listed. -/
def Admitted (params : List Name) (l : Level) : Prop :=
  l.hasMVar = false ∧ ∀ p ∈ l.params, p ∈ params

@[simp] lemma admitted_zero : Level.zero.Admitted ps :=
  ⟨rfl, fun _ h => absurd h not_mem_nil⟩

@[simp] lemma admitted_succ : l.succ.Admitted ps ↔ l.Admitted ps := Iff.rfl

@[simp] lemma admitted_max {a b : Level} : (a.max b).Admitted ps ↔ a.Admitted ps ∧ b.Admitted ps := by
  show (a.hasMVar || b.hasMVar) = false ∧ (∀ p ∈ a.params ++ b.params, p ∈ ps) ↔ _
  rw [Bool.or_eq_false_iff, forall_mem_append]
  exact and_and_and_comm

@[simp] lemma admitted_imax {a b : Level} : (a.imax b).Admitted ps ↔ a.Admitted ps ∧ b.Admitted ps :=
  admitted_max

@[simp] lemma admitted_param : (param p).Admitted ps ↔ p ∈ ps :=
  ⟨fun h => h.2 p (mem_singleton_self p), fun h => ⟨rfl, fun _ hq => mem_singleton.mp hq ▸ h⟩⟩

@[simp] lemma not_admitted_mvar {id : Id} : ¬ (mvar id).Admitted ps :=
  fun h => Bool.false_ne_true h.1.symm

lemma Admitted.subst_congr (hl : l.Admitted ps) {f g : Name → Level} {f' g' : Id → Level} (h : ∀ p ∈ ps, f p = g p) :
    l.subst f f' = l.subst g g' := by
  induction l with
  | zero => rfl
  | succ l ih => rw [subst, subst, ih hl]
  | max a b iha ihb =>
    obtain ⟨ha, hb⟩ := admitted_max.mp hl
    rw [subst, subst, iha ha, ihb hb]
  | imax a b iha ihb =>
    obtain ⟨ha, hb⟩ := admitted_imax.mp hl
    rw [subst, subst, iha ha, ihb hb]
  | param p => exact h p (admitted_param.mp hl)
  | mvar id => exact absurd hl not_admitted_mvar

lemma Admitted.subst (hl : l.Admitted ps) {f : Name → Level} {f' : Id → Level} (h : ∀ p ∈ ps, (f p).Admitted ps') :
    (l.subst f f').Admitted ps' := by
  induction l with
  | zero => exact admitted_zero
  | succ l ih => exact ih hl
  | max a b iha ihb =>
    obtain ⟨ha, hb⟩ := admitted_max.mp hl
    exact admitted_max.mpr ⟨iha ha, ihb hb⟩
  | imax a b iha ihb =>
    obtain ⟨ha, hb⟩ := admitted_imax.mp hl
    exact admitted_imax.mpr ⟨iha ha, ihb hb⟩
  | param p => exact h p (admitted_param.mp hl)
  | mvar id => exact absurd hl not_admitted_mvar

lemma subst_subst (f g : Name → Level) (f' g' : Id → Level) (l : Level) :
    (l.subst f f').subst g g' = l.subst (fun p => (f p).subst g g') fun id => (f' id).subst g g' := by
  induction l with
  | succ l ih => rw [subst, subst, subst, ih]
  | max a b iha ihb | imax a b iha ihb => rw [subst, subst, subst, iha, ihb]
  | _ => rfl

/-! ## Arguments -/

/-- A parameter that is listed is replaced by one of the arguments. -/
lemma lookupParam_mem {params : List Name} (hlen : params.length = args.length) (hp : p ∈ params) :
    lookupParam params args p ∈ args := by
  induction params generalizing args with
  | nil => simp at hp
  | cons q params ih =>
    cases args with
    | nil => simp at hlen
    | cons a args =>
      simp only [lookupParam, zip_cons_cons, lookup_cons]
      cases hpq : p == q with
      | true => simp
      | false =>
        have hp : p ∈ params := by simpa [beq_eq_false_iff_ne.mp hpq] using hp
        exact mem_cons_of_mem _ (ih (by simpa using hlen) hp)

lemma lookupParam_map {params : List Name} (hlen : params.length = args.length) (hp : p ∈ params)
    (f : Level → Level) : lookupParam params (args.map f) p = f (lookupParam params args p) := by
  induction params generalizing args with
  | nil => simp at hp
  | cons q params ih =>
    cases args with
    | nil => simp at hlen
    | cons a args =>
      simp only [lookupParam, map_cons, zip_cons_cons, lookup_cons]
      cases hpq : p == q with
      | true => rfl
      | false =>
        have hp : p ∈ params := by simpa [beq_eq_false_iff_ne.mp hpq] using hp
        exact ih (by simpa using hlen) hp

/-- The level with levels put for its parameters. -/
def put (σ : Name → Level) (l : Level) : Level :=
  l.subst σ .mvar

lemma Admitted.put (hl : l.Admitted ps) {σ : Name → Level} (hσ : ∀ p ∈ ps, (σ p).Admitted ps') :
    (l.put σ).Admitted ps' :=
  hl.subst hσ

/-- Levels for the parameters of arguments are put into the arguments. -/
lemma Admitted.put_instantiateParams (hl : l.Admitted ps) (hlen : ps.length = args.length) (σ : Name → Level) :
    (l.instantiateParams ps args).put σ = l.instantiateParams ps (args.map (·.put σ)) := by
  rw [Level.put, instantiateParams, subst_subst]
  exact hl.subst_congr fun p hp => (lookupParam_map hlen hp (·.put σ)).symm

lemma Admitted.instantiateParams (hl : l.Admitted ps) (hlen : ps.length = args.length)
    (hargs : ∀ a ∈ args, a.Admitted ps') : (l.instantiateParams ps args).Admitted ps' :=
  hl.subst fun _ hp => hargs _ (lookupParam_mem hlen hp)

/-- An argument for a parameter that does not occur is not seen. -/
lemma Admitted.instantiateParams_cons (hl : l.Admitted ps) {q : Name} (hq : q ∉ ps) (a : Level) (args : List Level) :
    l.instantiateParams (q :: ps) (a :: args) = l.instantiateParams ps args := by
  refine hl.subst_congr fun p hp => ?_
  have hne : (p == q) = false := beq_eq_false_iff_ne.mpr fun h => hq (h ▸ hp)
  simp only [lookupParam, zip_cons_cons, lookup_cons, hne]

/-- Distinct parameters are replaced by their own arguments. -/
lemma map_instantiateParams_param (hnodup : ps.Nodup) (hlen : ps.length = args.length) :
    (ps.map param).map (·.instantiateParams ps args) = args := by
  induction ps generalizing args with
  | nil => exact (length_eq_zero_iff.mp hlen.symm).symm
  | cons p ps ih =>
    cases args with
    | nil => simp at hlen
    | cons a args =>
      obtain ⟨hp, hnodup⟩ := nodup_cons.mp hnodup
      have htail : (ps.map param).map (·.instantiateParams (p :: ps) (a :: args)) =
          (ps.map param).map (·.instantiateParams ps args) := by
        rw [map_map, map_map]
        exact map_congr_left fun q hq =>
          (admitted_param.mpr hq).instantiateParams_cons hp a args
      rw [map_cons, map_cons, htail, ih hnodup (by simpa using hlen)]
      simp [instantiateParams, subst, lookupParam]

end Level

end ProofAssistant
