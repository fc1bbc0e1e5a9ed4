import Mathlib.Tactic.Lemma
import ProofAssistant.Context

/-!
# What occurs in a term

A scope says which hypotheses, levels, constants, constructors and holes are admitted. `Term.In S k m`
says that all of them in `m` are admitted by `S`, and that the loose indices of `m` are below `k`. The
facts that a term keeps at its root are read off from scopes, and the other way round.
-/

namespace ProofAssistant

variable {S S' : Scope} {k' : Nat}

/-- What may occur in a term. All is admitted that is not restricted. -/
structure Scope where
  free : Id → Prop := fun _ => True
  level : Level → Prop := fun _ => True
  const : Name → List Level → Prop := fun _ _ => True
  ctor : Name → Nat → List Level → Prop := fun _ _ _ => True
  hole : Id → Prop := fun _ => True

namespace Scope

/-- A scope that admits what another one does. -/
structure Le (S S' : Scope) : Prop where
  free : ∀ x, S.free x → S'.free x := by exact fun _ h => h
  level : ∀ l, S.level l → S'.level l := by exact fun _ h => h
  const : ∀ c ls, S.const c ls → S'.const c ls := by exact fun _ _ h => h
  ctor : ∀ t i ls, S.ctor t i ls → S'.ctor t i ls := by exact fun _ _ _ h => h
  hole : ∀ h, S.hole h → S'.hole h := by exact fun _ h => h

lemma le_of_free_hole {P Q : Id → Prop} (hfree : ∀ x, S.free x → P x) (hhole : ∀ h, S.hole h → Q h) :
    S.Le { free := P, hole := Q } :=
  ⟨hfree, fun _ _ => trivial, fun _ _ _ => trivial, fun _ _ _ _ => trivial, hhole⟩

lemma le_of_free {P : Id → Prop} (h : ∀ x, S.free x → P x) : S.Le { free := P } :=
  le_of_free_hole h fun _ _ => trivial

end Scope

namespace Term

variable {S : Scope} {k : Nat} {m : Term}

/-- All that occurs in the term is admitted, and its loose indices are below `k`. -/
def In (S : Scope) : (k : Nat) → Term → Prop
  | k, .var i => i < k
  | _, .sort l => S.level l
  | _, .const c ls => S.const c ls
  | _, .ctor t i _ ls => S.ctor t i ls
  | k, .app f a => f.In S k ∧ a.In S k
  | k, .lam _ t b | k, .pi _ _ t b => t.In S k ∧ b.In S (k + 1)
  | _, .free x => S.free x
  | _, .hole h _ => S.hole h

lemma In.mono (hS : S.Le S') (hk : k ≤ k') (h : m.In S k) : m.In S' k' := by
  induction m generalizing k k' with
  | var i => exact Nat.lt_of_lt_of_le h hk
  | sort l => exact hS.level l h
  | const c ls => exact hS.const c ls h
  | ctor t i c ls => exact hS.ctor t i ls h
  | app f a ihf iha => exact ⟨ihf hk h.1, iha hk h.2⟩
  | lam x t b iht ihb | pi x _ t b iht ihb =>
    exact ⟨iht hk h.1, ihb (Nat.succ_le_succ hk) h.2⟩
  | free x => exact hS.free x h
  | hole h' d => exact hS.hole h' h

lemma In.le (hk : k ≤ k') (h : m.In S k) : m.In S k' :=
  h.mono {} hk

lemma In.widen (hS : S.Le S') (h : m.In S k) : m.In S' k :=
  h.mono hS (Nat.le_refl k)

/-! ## Leaves -/

/-- The term has no parts. -/
def IsLeaf : Term → Prop
  | .app .. | .lam .. | .pi .. => False
  | _ => True

/-- A property of terms below `k` binders that a term has exactly if its parts have it. -/
structure Leafwise (P : (k : Nat) → Term → Prop) : Prop where
  app {k : Nat} {f a : Term} : P k (.app f a) ↔ P k f ∧ P k a
  lam {k : Nat} {x : Name} {t b : Term} : P k (.lam x t b) ↔ P k t ∧ P (k + 1) b
  pi {k : Nat} {x : Name} {i : Bool} {t b : Term} : P k (.pi x i t b) ↔ P k t ∧ P (k + 1) b

variable {P Q : Nat → Term → Prop}

/-- What follows at the leaves follows everywhere. -/
lemma Leafwise.imp (hP : Leafwise P) (hQ : Leafwise Q) (h : ∀ k m, m.IsLeaf → P k m → Q k m) (hm : P k m) : Q k m := by
  induction m generalizing k with
  | app f a ihf iha =>
    rw [hP.app] at hm
    exact hQ.app.mpr ⟨ihf hm.1, iha hm.2⟩
  | lam x t b iht ihb =>
    rw [hP.lam] at hm
    exact hQ.lam.mpr ⟨iht hm.1, ihb hm.2⟩
  | pi x i t b iht ihb =>
    rw [hP.pi] at hm
    exact hQ.pi.mpr ⟨iht hm.1, ihb hm.2⟩
  | _ => exact h k _ trivial hm

lemma Leafwise.iff (hP : Leafwise P) (hQ : Leafwise Q) (h : ∀ k m, m.IsLeaf → (P k m ↔ Q k m)) : P k m ↔ Q k m :=
  ⟨hP.imp hQ fun k m hm => (h k m hm).mp, hQ.imp hP fun k m hm => (h k m hm).mpr⟩

lemma Leafwise.all (hQ : Leafwise Q) (h : ∀ k m, m.IsLeaf → Q k m) (k : Nat) (m : Term) : Q k m :=
  imp (P := fun _ _ => True) ⟨by simp, by simp, by simp⟩ hQ (fun k m hm _ => h k m hm) trivial

lemma Leafwise.and (hP : Leafwise P) (hQ : Leafwise Q) : Leafwise fun k m => P k m ∧ Q k m where
  app := (and_congr hP.app hQ.app).trans and_and_and_comm
  lam := (and_congr hP.lam hQ.lam).trans and_and_and_comm
  pi := (and_congr hP.pi hQ.pi).trans and_and_and_comm

lemma Leafwise.forall {ι : Type} {P : ι → Nat → Term → Prop} (h : ∀ i, Leafwise (P i)) :
    Leafwise fun k m => ∀ i, P i k m where
  app := (forall_congr' fun i => (h i).app).trans forall_and
  lam := (forall_congr' fun i => (h i).lam).trans forall_and
  pi := (forall_congr' fun i => (h i).pi).trans forall_and

lemma leafwise_in (S : Scope) : Leafwise fun k m => m.In S k :=
  ⟨.rfl, .rfl, .rfl⟩

lemma leafwise_in_add (S : Scope) (n : Nat) : Leafwise fun k m => m.In S (k + n) :=
  ⟨.rfl, by simp [In, Nat.add_right_comm], by simp [In, Nat.add_right_comm]⟩

lemma leafwise_looseBound : Leafwise fun k m => m.looseBound ≤ k where
  app := Nat.max_le
  lam := Nat.max_le.trans (and_congr_right' Nat.sub_le_iff_le_add)
  pi := Nat.max_le.trans (and_congr_right' Nat.sub_le_iff_le_add)

lemma leafwise_hasFree : Leafwise fun _ m => m.hasFree = false := by
  constructor <;> exact Bool.or_eq_false_iff

lemma leafwise_hasHole : Leafwise fun _ m => m.hasHole = false := by
  constructor <;> exact Bool.or_eq_false_iff

/-- The loose indices are below the bound that the term keeps. -/
lemma in_looseBound (h : m.looseBound ≤ k) : m.In {} k := by
  refine leafwise_looseBound.imp (leafwise_in {}) (fun k m hm h => ?_) h
  cases m <;> simp_all [IsLeaf, In, looseBound, Nat.succ_le_iff]

lemma In.looseBound_le (h : m.In S k) : m.looseBound ≤ k := by
  refine (leafwise_in S).imp leafwise_looseBound (fun k m hm h => ?_) h
  cases m <;> simp_all [IsLeaf, In, looseBound, Nat.succ_le_iff]

/-- A term that keeps that it has no hypothesis is in every scope of hypotheses. -/
lemma in_of_hasFree {P : Id → Prop} (h : m.hasFree = false) : m.In { free := P } m.looseBound := by
  refine (leafwise_hasFree.and leafwise_looseBound).imp (leafwise_in _) (fun k m hm h => ?_) ⟨h, Nat.le_refl _⟩
  cases m <;> simp_all [IsLeaf, In, hasFree, looseBound, Nat.succ_le_iff]

lemma In.hasFree_eq_false (h : m.In S k) (hS : ∀ x, ¬ S.free x) : m.hasFree = false := by
  refine (leafwise_in S).imp leafwise_hasFree (fun k m hm h => ?_) h
  cases m <;> simp_all [IsLeaf, In, hasFree]

lemma In.hasHole_eq_false (h : m.In S k) (hS : ∀ x, ¬ S.hole x) : m.hasHole = false := by
  refine (leafwise_in S).imp leafwise_hasHole (fun k m hm h => ?_) h
  cases m <;> simp_all [IsLeaf, In, hasHole]

/-! ## Spines -/

lemma in_apply {as : List Term} : (m.apply as).In S k ↔ m.In S k ∧ ∀ a ∈ as, a.In S k := by
  induction as generalizing m with
  | nil => simp
  | cons a as ih =>
    rw [apply_cons, ih, In, List.forall_mem_cons, and_assoc]

lemma In.head_args (h : m.In S k) : m.head.In S k ∧ ∀ a ∈ m.args, a.In S k := by
  rw [← in_apply, apply_head_args]
  exact h

end Term

end ProofAssistant
