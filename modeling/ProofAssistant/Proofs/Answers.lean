import Mathlib.Data.List.Forall2
import ProofAssistant.Environment.Inductive
import ProofAssistant.Proofs.LevelArguments

/-!
# Answers of computations

`Fueled.Yields x a` says that the computation `x` ends without an error and with the answer `a`. The
lemmas below take a computation apart at its binds; what is left are the answers of its parts.
-/

namespace ProofAssistant

variable {Γ : Context} {m : Term} {u : Unit} {params declared : List Name}

/-- A call that needs fuel of its own needs one more than the calls in it. -/
lemma exists_enough_of_succ {p : Nat → Prop} (h : ∃ enough, ∀ fuel, enough ≤ fuel → p (fuel + 1)) :
    ∃ enough, ∀ fuel, enough ≤ fuel → p fuel := by
  obtain ⟨enough, h⟩ := h
  refine ⟨enough + 1, fun fuel hfuel => ?_⟩
  obtain ⟨fuel, rfl⟩ := Nat.exists_eq_add_of_le' hfuel
  exact h (fuel + enough) (Nat.le_add_left enough fuel)

namespace Fueled

variable {ε α β : Type}

/-- The computation ends with the answer `a`. -/
def Yields (x : Fueled ε α) (a : α) : Prop :=
  x.run = some (.ok a)

lemma Yields.unique {x : Fueled ε α} {a b : α} (ha : x.Yields a) (hb : x.Yields b) : a = b := by
  simpa using Option.some.inj (ha.symm.trans hb)

@[simp] lemma yields_pure {a b : α} : (pure b : Fueled ε α).Yields a ↔ b = a := by
  simp [Yields, ExceptT.run, pure, ExceptT.pure, ExceptT.mk]

@[simp] lemma yields_bind {x : Fueled ε α} {f : α → Fueled ε β} {b : β} :
    (x >>= f).Yields b ↔ ∃ a, x.Yields a ∧ (f a).Yields b := by
  rcases x with _ | _ | a <;>
    simp [Yields, ExceptT.run, bind, ExceptT.bind, ExceptT.mk, ExceptT.bindCont]

@[simp] lemma yields_map {x : Fueled ε α} {f : α → β} {b : β} : (f <$> x).Yields b ↔ ∃ a, x.Yields a ∧ f a = b := by
  rcases x with _ | _ | a <;>
    simp [Yields, ExceptT.run, Functor.map, ExceptT.map, ExceptT.mk]

@[simp] lemma not_yields_throw {e : ε} {a : α} : ¬ (throw e : Fueled ε α).Yields a := by
  simp [Yields, ExceptT.run, throw, throwThe, MonadExceptOf.throw, ExceptT.mk]

@[simp] lemma not_yields_exhausted {a : α} : ¬ (exhausted : Fueled ε α).Yields a := by
  simp [Yields, exhausted, ExceptT.run, ExceptT.mk]

@[simp] lemma yields_ofOption {o : Option α} {a : α} : (ofOption o : Fueled ε α).Yields a ↔ o = some a := by
  cases o <;> simp [Yields, ofOption, ExceptT.run, ExceptT.mk]

/-- A computation without a value needs no name for its answer. -/
@[simp] lemma exists_yields_unit {x : Fueled ε Unit} {p : Prop} : (∃ u, x.Yields u ∧ p) ↔ x.Yields () ∧ p :=
  ⟨fun ⟨_, h⟩ => h, fun h => ⟨(), h⟩⟩

@[simp] lemma yields_forM {f : α → Fueled ε Unit} {as : List α} :
    (forM as f).Yields u ↔ ∀ a ∈ as, (f a).Yields () := by
  induction as with
  | nil => simp
  | cons a as ih => simp only [List.forM_cons, yields_bind, exists_yields_unit, ih, List.forall_mem_cons]

lemma yields_mapM {f : α → Fueled ε β} {as : List α} {bs : List β} :
    (as.mapM f).Yields bs ↔ List.Forall₂ (fun a b => (f a).Yields b) as bs := by
  induction as generalizing bs with
  | nil =>
    rw [List.mapM_nil, yields_pure, List.forall₂_nil_left_iff]
    exact eq_comm
  | cons a as ih =>
    simp only [List.mapM_cons, yields_bind, yields_pure, ih, List.forall₂_cons_left_iff]
    constructor
    · rintro ⟨b, hb, bs', hbs, rfl⟩
      exact ⟨b, bs', hb, hbs, rfl⟩
    · rintro ⟨b, bs', hb, hbs, rfl⟩
      exact ⟨b, hb, bs', hbs, rfl⟩

end Fueled

namespace Env

open Fueled List

variable {α : Type}

@[simp] lemma not_yields_reject {cause : TypeError.Cause} {a : α} :
    ¬ (reject Γ m cause : Fueled TypeError α).Yields a :=
  not_yields_throw

@[simp] lemma yields_checkLevel {l : Level} : (checkLevel params Γ m l).Yields u ↔ l.Admitted params := by
  unfold checkLevel Level.Admitted
  split
  · rename_i h
    simp [h]
  · rename_i h
    split
    · rename_i p hp
      have hmem := mem_of_find?_eq_some hp
      have hnot := find?_some hp
      simp only [Bool.not_eq_true', contains_eq_mem, decide_eq_false_iff_not] at hnot
      simp only [not_yields_reject, false_iff]
      exact fun hall => hnot (hall.2 p hmem)
    · rename_i hp
      simp only [find?_eq_none, Bool.not_eq_true', contains_eq_mem, decide_eq_false_iff_not,
        Decidable.not_not] at hp
      simp [h]
      exact hp

/-- The type of a declaration is given exactly if the levels are as many as its parameters and all
of them are accepted. -/
lemma yields_instantiateType {c : Name} {levels : List Level} {type T : Term} :
    (instantiateType params Γ m c declared levels type).Yields T ↔ declared.length = levels.length ∧
      (∀ l ∈ levels, l.Admitted params) ∧ type.instantiateLevelParams declared levels = T := by
  unfold instantiateType
  by_cases h : declared.length = levels.length
  · simp only [h, ne_eq, not_true_eq_false, if_false, forM_eq_forM, yields_bind, yields_pure,
      yields_forM, yields_checkLevel, exists_const, true_and]
  · simp [h]

end Env

end ProofAssistant
