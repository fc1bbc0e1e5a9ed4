import Mathlib.Data.List.Forall2
import ProofAssistant.Level

/-!
# The values of levels

A level has a value, a natural number, once its parameters and metavariables are given values. Normal
forms keep the value: `Level.value_normalize`. Hence levels that pass for equal are equal under every
valuation (`Level.value_eq_of_isEquiv`), and a level that passes for zero is zero under all of them
(`Level.value_eq_zero_of_isZero`).
-/

namespace ProofAssistant

open List

variable {l : Level} {inner : Level → List Summand}

namespace Level

variable {a b : Level}

/-- Values for the parameters and, by number, for the metavariables. -/
structure Valuation where
  param : Name → Nat
  mvar : Nat → Nat

/-- The value of a level. -/
def value (v : Valuation) : Level → Nat
  | .zero => 0
  | .succ l => l.value v + 1
  | .max a b => Max.max (a.value v) (b.value v)
  | .imax a b => if b.value v = 0 then 0 else Max.max (a.value v) (b.value v)
  | .param p => v.param p
  | .mvar id => v.mvar id.number

/-- Levels of the same value under every valuation. -/
def Same (a b : Level) : Prop :=
  ∀ v, a.value v = b.value v

lemma Same.refl (a : Level) : Same a a := fun _ => rfl

lemma Same.symm (h : Same a b) : Same b a := fun v => (h v).symm

/-! ## Substitution -/

/-- Replacing parameters and metavariables is the same as changing their values. -/
lemma value_subst (v : Valuation) (f : Name → Level) (g : Id → Level) (w : Valuation) (l : Level)
    (hp : ∀ p, (f p).value v = w.param p) (hm : ∀ id, (g id).value v = w.mvar id.number) :
    (l.subst f g).value v = l.value w := by
  induction l with
  | zero => rfl
  | succ l ih => simp only [subst, value, ih]
  | max a b iha ihb => simp only [subst, value, iha, ihb]
  | imax a b iha ihb => simp only [subst, value, iha, ihb]
  | param p => exact hp p
  | mvar id => exact hm id

/-- The valuation in which the parameters have the values of their arguments. -/
def Valuation.withParams (v : Valuation) (params : List Name) (args : List Level) : Valuation :=
  { v with param := fun p => (lookupParam params args p).value v }

lemma value_instantiateParams (v : Valuation) (params : List Name) (args : List Level) (l : Level) :
    (l.instantiateParams params args).value v = l.value (v.withParams params args) :=
  value_subst v _ _ _ l (fun _ => rfl) (fun _ => rfl)

lemma Same.instantiateParams (h : Same a b) (params : List Name) (args : List Level) :
    Same (a.instantiateParams params args) (b.instantiateParams params args) := by
  intro v
  rw [value_instantiateParams, value_instantiateParams, h]

lemma Same.instantiate_args {args args' : List Level} (h : List.Forall₂ Same args args')
    (params : List Name) (l : Level) : Same (l.instantiateParams params args) (l.instantiateParams params args') := by
  have hlookup : ∀ p, Same (lookupParam params args p) (lookupParam params args' p) := by
    intro p
    unfold lookupParam
    induction h generalizing params with
    | nil => simp [Same.refl]
    | cons hl _ ih =>
      cases params with
      | nil => exact .refl _
      | cons q params =>
        simp only [zip_cons_cons, lookup_cons]
        cases p == q with
        | true => exact hl
        | false => exact ih params
  intro v
  rw [value_instantiateParams, value_instantiateParams]
  have hval : v.withParams params args = v.withParams params args' := by
    unfold Valuation.withParams
    congr 1
    funext p
    exact hlookup p v
  rw [hval]

/-- What a level means: its value under every valuation. -/
def meaning (l : Level) : Valuation → Nat :=
  fun v => l.value v

lemma meaning_eq_iff : a.meaning = b.meaning ↔ Same a b :=
  funext_iff

lemma map_meaning_eq_iff {as bs : List Level} : as.map meaning = bs.map meaning ↔ List.Forall₂ Same as bs := by
  induction as generalizing bs with
  | nil => cases bs <;> simp
  | cons a as ih =>
    cases bs with
    | nil => simp
    | cons b bs => simp [meaning_eq_iff, ih]

/-! ## Normal forms -/

@[simp] lemma value_addOffset (v : Valuation) (l : Level) (k : Nat) : (l.addOffset k).value v = l.value v + k := by
  induction k with
  | zero => rfl
  | succ k ih => rw [addOffset, value, ih, Nat.add_assoc]

/-- The value of a summand. -/
def Summand.value (v : Valuation) (s : Summand) : Nat :=
  s.base.value v + s.offset

/-- The value of a maximum of summands. -/
def summandsValue (v : Valuation) : List Summand → Nat
  | [] => 0
  | s :: ss => Max.max (s.value v) (summandsValue v ss)

lemma summandsValue_append (v : Valuation) (ss ts : List Summand) :
    summandsValue v (ss ++ ts) = Max.max (summandsValue v ss) (summandsValue v ts) := by
  induction ss with
  | nil => simp [summandsValue]
  | cons s ss ih => simp only [cons_append, summandsValue]; omega

lemma summandsValue_map_succ (v : Valuation) (ss : List Summand) (h : ss ≠ []) :
    summandsValue v (ss.map Summand.succ) = summandsValue v ss + 1 := by
  induction ss with
  | nil => exact absurd rfl h
  | cons s ss ih =>
    simp only [map_cons, summandsValue, Summand.value, Summand.succ]
    by_cases hs : ss = []
    · subst hs; simp [summandsValue]; omega
    · rw [ih hs]; omega

lemma name_eq_of_compare {p q : Name} (h : compare p q = .eq) : p = q := by
  have ht : compare p.text q.text = .eq := h
  have : p.text = q.text := Std.LawfulEqCmp.eq_of_compare ht
  exact congrArg Name.mk this

/-- Levels that compare as equal have the same value. They may differ in the names that their
metavariables remember. -/
private lemma same_of_compare (h : a.compare b = .eq) : Same a b := by
  intro v
  fun_induction Level.compare a b with
  | case1 a b ih => rw [value, value, ih h]
  | case2 a₁ b₁ a₂ b₂ iha ihb | case3 a₁ b₁ a₂ b₂ iha ihb =>
    rw [Ordering.then_eq_eq] at h
    rw [value, value, iha h.1, ihb h.2]
  | case4 p q => rw [name_eq_of_compare h]
  | case5 i j =>
    have hn : compare i.number j.number = .eq := h
    rw [value, value, Nat.compare_eq_eq.mp hn]
  | case6 a b h₁ h₂ h₃ h₄ h₅ =>
    have hr : a.rank = b.rank := Nat.compare_eq_eq.mp h
    -- Levels of equal rank have the same constructor, and only zero was not compared before.
    cases a <;> cases b <;> simp [rank] at hr
    · rfl
    · exact absurd rfl (h₁ _ _ rfl)
    · exact absurd rfl (h₂ _ _ _ _ rfl)
    · exact absurd rfl (h₃ _ _ _ _ rfl)
    · exact absurd rfl (h₄ _ _ rfl)
    · exact absurd rfl (h₅ _ _ rfl)

lemma summandsValue_insert (v : Valuation) (s : Summand) (ss : List Summand) :
    summandsValue v (Summand.insert s ss) = Max.max (s.value v) (summandsValue v ss) := by
  induction ss with
  | nil => rfl
  | cons t ts ih =>
    unfold Summand.insert
    split
    · rfl
    · rename_i heq
      have hb : s.base.value v = t.base.value v := same_of_compare heq v
      simp only [summandsValue, Summand.value]
      have : Nat.max t.offset s.offset = Max.max t.offset s.offset := rfl
      omega
    · simp only [summandsValue]; omega

/-- The maximum of the constants and that of the atoms make up the whole. -/
private lemma constant_atoms_value (v : Valuation) (ss : List Summand) (k : Nat)
    (atoms : List Summand) :
    Max.max (ss.foldl (fun k s => if s.base = .zero then Nat.max k s.offset else k) k)
      (summandsValue v
        (ss.foldl (fun atoms s => if s.base = .zero then atoms else Summand.insert s atoms) atoms)) =
      Max.max (Max.max k (summandsValue v atoms)) (summandsValue v ss) := by
  induction ss generalizing k atoms with
  | nil => simp [summandsValue]
  | cons s ss ih =>
    rw [foldl_cons, foldl_cons, ih]
    by_cases hz : s.base = .zero
    · have hs : s.value v = s.offset := by rw [Summand.value, hz, value, Nat.zero_add]
      have : Nat.max k s.offset = Max.max k s.offset := rfl
      simp only [hz, if_true, summandsValue, hs]
      omega
    · simp only [hz, if_false, summandsValue, summandsValue_insert]
      omega

lemma value_foldl_max (v : Valuation) (l : Level) (ls : List Level) :
    (ls.foldl .max l).value v = ls.foldl (fun k l => Max.max k (l.value v)) (l.value v) := by
  induction ls generalizing l with
  | nil => rfl
  | cons l' ls ih => rw [foldl_cons, foldl_cons, ih, value]

lemma foldl_max_toLevel (v : Valuation) (k : Nat) (ss : List Summand) :
    (ss.map Summand.toLevel).foldl (fun k l => Max.max k (l.value v)) k = Max.max k (summandsValue v ss) := by
  induction ss generalizing k with
  | nil => simp [summandsValue]
  | cons s ss ih =>
    rw [map_cons, foldl_cons, ih, summandsValue, Summand.toLevel, value_addOffset, Summand.value]
    omega

lemma value_maxOf_toLevel (v : Valuation) (ss : List Summand) :
    (maxOf (ss.map Summand.toLevel)).value v = summandsValue v ss := by
  cases ss with
  | nil => rfl
  | cons s ss =>
    rw [map_cons, maxOf, value_foldl_max, foldl_max_toLevel, summandsValue, Summand.toLevel,
      value_addOffset, Summand.value]

/-- A constant that is not above every offset is below the value of the atoms. -/
private lemma le_summandsValue_of_offset (v : Valuation) (k : Nat) {ss : List Summand}
    (h : ss.all (·.offset < k) = false) : k ≤ summandsValue v ss := by
  induction ss with
  | nil => simp at h
  | cons s ss ih =>
    simp only [summandsValue, Summand.value]
    by_cases hs : s.offset < k
    · have := ih (by simpa [hs] using h)
      omega
    · omega

lemma value_ofSummands (v : Valuation) (ss : List Summand) : (ofSummands ss).value v = summandsValue v ss := by
  have hsplit : Max.max (constantOf ss) (summandsValue v (atomsOf ss)) = summandsValue v ss := by
    have := constant_atoms_value v ss 0 []
    simpa [summandsValue, constantOf, atomsOf] using this
  unfold ofSummands
  dsimp only
  split
  · rw [maxOf, value_foldl_max, foldl_max_toLevel, ofNat, value_addOffset, value, Nat.zero_add, hsplit]
  · rename_i hc
    rw [value_maxOf_toLevel]
    -- The constant is left out only where it does not count.
    have hle : constantOf ss ≤ summandsValue v (atomsOf ss) := by
      by_cases h0 : 0 < constantOf ss
      · exact le_summandsValue_of_offset v _ (by simpa [h0] using hc)
      · omega
    omega

lemma value_pos_of_isNeverZero (v : Valuation) (h : l.isNeverZero) : 0 < l.value v := by
  induction l with
  | succ l _ => exact Nat.succ_pos _
  | max a b iha ihb =>
    simp only [isNeverZero, Bool.or_eq_true] at h
    rw [value]
    rcases h with h | h
    · have := iha h; omega
    · have := ihb h; omega
  | imax a b _ ihb =>
    have hb := ihb h
    rw [value, if_neg (by omega)]
    omega
  | _ => simp [isNeverZero] at h

lemma summandsWith_ne_nil (hne : ∀ l, inner l ≠ [])
    (l : Level) : summandsWith inner l ≠ [] := by
  induction l with
  | succ l ih => simpa [summandsWith] using ih
  | max a b iha _ => simp [summandsWith, iha]
  | imax a b _ _ =>
    unfold summandsWith
    dsimp only
    split
    · simp [hne a]
    · split <;> simp
  | _ => simp [summandsWith]

/-- If the summands of the arguments of each `imax` have the right value, so have those of the
level. -/
private lemma summandsValue_summandsWith (v : Valuation)
    (hv : ∀ l, summandsValue v (inner l) = l.value v) (hne : ∀ l, inner l ≠ []) (l : Level) :
    summandsValue v (summandsWith inner l) = l.value v := by
  induction l with
  | zero => rfl
  | succ l ih => rw [summandsWith, summandsValue_map_succ v _ (summandsWith_ne_nil hne l), ih, value]
  | max a b iha ihb => rw [summandsWith, summandsValue_append, iha, ihb, value]
  | imax a b _ _ =>
    have hb : (ofSummands (inner b)).value v = b.value v := by rw [value_ofSummands, hv]
    have ha : (ofSummands (inner a)).value v = a.value v := by rw [value_ofSummands, hv]
    unfold summandsWith
    dsimp only
    split
    · rename_i hpos
      have := value_pos_of_isNeverZero v hpos
      rw [summandsValue_append, hv, hv, hb, value, if_neg (by omega)]
    · split
      · rename_i hz
        rw [hz, value] at hb
        rw [value, if_pos hb.symm]
        rfl
      · simp [summandsValue, Summand.value, value, ha, hb]
  | param p => simp [summandsWith, summandsValue, Summand.value]
  | mvar id => simp [summandsWith, summandsValue, Summand.value]

private lemma summands_value (v : Valuation) (depth : Nat) :
    ∀ l, summandsValue v (summands depth l) = l.value v ∧ summands depth l ≠ [] := by
  induction depth with
  | zero =>
    intro l
    refine ⟨summandsValue_summandsWith v (fun l => ?_) (by simp) l, summandsWith_ne_nil (by simp) l⟩
    simp [summandsValue, Summand.value]
  | succ depth ih =>
    intro l
    exact ⟨summandsValue_summandsWith v (fun l => (ih l).1) (fun l => (ih l).2) l,
      summandsWith_ne_nil (fun l => (ih l).2) l⟩

lemma value_normalize (v : Valuation) (l : Level) : l.normalize.value v = l.value v := by
  rw [normalize, value_ofSummands, (summands_value v _ l).1]

/-- Levels that pass for equal are equal under every valuation. -/
lemma value_eq_of_isEquiv (h : a.isEquiv b) : Same a b := by
  intro v
  simp only [isEquiv, Bool.or_eq_true, beq_iff_eq] at h
  rcases h with rfl | h
  · rfl
  · rw [← value_normalize v a, h, value_normalize]

/-- A level that passes for at most another is at most it under every valuation. -/
lemma value_le_of_isLeq (h : a.isLeq b) (v : Valuation) : a.value v ≤ b.value v := by
  have hmax : Max.max (a.value v) (b.value v) = b.value v := value_eq_of_isEquiv h v
  omega

/-- A level that passes for zero is zero under every valuation. -/
lemma value_eq_zero_of_isZero (h : l.isZero) (v : Valuation) : l.value v = 0 := by
  have hz : l.normalize = .zero := by simpa [isZero] using h
  rw [← value_normalize v l, hz, value]

end Level

end ProofAssistant
