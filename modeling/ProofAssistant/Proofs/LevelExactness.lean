import ProofAssistant.Proofs.LevelOrder

/-!
# Comparison of levels against their values

What passes for equal, for below or for zero is so under every valuation. Here are the converses. A level that is not
positive by its shape is zero when all parameters and metavariables are, and one that does not pass for zero is positive
when all of them are one.

Between normal forms without `imax`, a parameter of a value above all offsets shows whether it occurs, and with which
offset. So the comparison of such levels is exact: `Level.comparison_exact`.
-/

namespace ProofAssistant

namespace Level

variable {l b : Level} {ss : List Summand}

/-! ## Positive levels and zero -/

/-- All parameters and metavariables have the same value. -/
def Valuation.constant (n : Nat) : Valuation := ⟨fun _ => n, fun _ => n⟩

lemma value_constant_zero (h : l.isNeverZero = false) : l.value (.constant 0) = 0 := by
  induction l with
  | zero | param p | mvar id => rfl
  | succ l _ => simp [isNeverZero] at h
  | max a b iha ihb =>
    obtain ⟨ha, hb⟩ := Bool.or_eq_false_iff.mp h
    rw [value, iha ha, ihb hb, Nat.max_self]
  | imax a b _ ihb => rw [value, if_pos (ihb h)]

lemma isNeverZero_iff : l.isNeverZero ↔ ∀ v, 0 < l.value v := by
  refine ⟨fun h v => value_pos_of_isNeverZero v h, fun h => ?_⟩
  by_contra hnot
  have hpos := h (.constant 0)
  rw [value_constant_zero (Bool.eq_false_iff.mpr hnot)] at hpos
  exact Nat.lt_irrefl 0 hpos

/-- A level that is zero although its parameters and metavariables are not has the normal form zero. -/
lemma normalize_of_value_constant_one (hl : l.Plain) (h : l.value (.constant 1) = 0) : l.normalize = .zero := by
  induction l with
  | zero => rfl
  | param p | mvar id => exact absurd h Nat.one_ne_zero
  | succ l _ => exact absurd h (Nat.succ_ne_zero _)
  | max a b iha ihb =>
    obtain ⟨ha, hb⟩ := plain_append hl
    rw [value] at h
    have hA := (normalize_eq_iff ha plain_zero).mp (iha ha (by omega))
    have hB := (normalize_eq_iff hb plain_zero).mp (ihb hb (by omega))
    show (a.max b).normalize = Level.zero.normalize
    rw [normalize_eq_iff hl plain_zero, parts_max]
    exact (hA.append hB).trans ⟨.of_subset (by simp), .of_subset (by simp)⟩
  | imax a b _ ihb =>
    obtain ⟨-, hb⟩ := plain_append hl
    have hzero : b.value (.constant 1) = 0 := by
      rw [value] at h
      by_contra hne
      rw [if_neg hne] at h
      omega
    rw [normalize_eq, parts_imax, ihb hb hzero]
    rfl

lemma isZero_iff : l.isZero ↔ ∀ v, l.value v = 0 := by
  refine ⟨fun h v => value_eq_zero_of_isZero h v, fun h => ?_⟩
  have hforget : l.forget.normalize = .zero := by
    refine normalize_of_value_constant_one (plain_forget l) ?_
    rw [forget, value_remember, h]
  rw [forget, normalize_remember, remember_eq_zero_iff] at hforget
  rw [isZero, hforget]
  rfl

/-! ## Maxima without `imax` -/

lemma value_le_summandsValue (v : Valuation) {s : Summand} (hs : s ∈ ss) : s.value v ≤ summandsValue v ss := by
  induction ss with
  | nil => exact absurd hs List.not_mem_nil
  | cons t ts ih =>
    rw [summandsValue]
    rcases List.mem_cons.mp hs with rfl | hs
    · omega
    · have := ih hs
      omega

lemma exists_summand_value (v : Valuation) (hne : ss ≠ []) : ∃ s ∈ ss, summandsValue v ss = s.value v := by
  induction ss with
  | nil => exact absurd rfl hne
  | cons s ss ih =>
    by_cases hss : ss = []
    · subst hss
      exact ⟨s, List.mem_cons_self, by simp [summandsValue]⟩
    obtain ⟨t, ht, hvalue⟩ := ih hss
    rw [summandsValue, hvalue]
    rcases Nat.le_total (s.value v) (t.value v) with hle | hle
    · exact ⟨t, List.mem_cons_of_mem _ ht, Nat.max_eq_right hle⟩
    · exact ⟨s, List.mem_cons_self, Nat.max_eq_left hle⟩

/-- A base that has a value of its own: zero, a parameter or a metavariable. -/
def IsAtom : Level → Prop
  | .zero | .param _ | .mvar _ => True
  | _ => False

lemma isAtom_of_isBase (hb : b.IsBase) (h : b.imaxDepth = 0) : b.IsAtom := by
  cases b with
  | zero | param p | mvar id => trivial
  | succ l | max l r => exact hb
  | imax l r => exact absurd h (Nat.succ_ne_zero _)

lemma imaxDepth_of_mem_leaves (h : l.imaxDepth = 0) {s : Summand} (hs : s ∈ l.leaves) : s.base.imaxDepth = 0 := by
  induction l generalizing s with
  | succ l ih =>
    obtain ⟨t, ht, rfl⟩ := List.mem_map.mp hs
    have hbase : t.base.imaxDepth = 0 := ih h ht
    exact hbase
  | max a b iha ihb =>
    have hmax : Nat.max a.imaxDepth b.imaxDepth = 0 := h
    obtain ⟨ha, hb⟩ := Nat.max_le.mp (Nat.le_of_eq hmax)
    rcases List.mem_append.mp hs with hs | hs
    · exact iha (Nat.le_zero.mp ha) hs
    · exact ihb (Nat.le_zero.mp hb) hs
  | _ =>
    obtain rfl := List.mem_singleton.mp hs
    exact h

/-- The valuation that gives a value to one atom only. -/
def Valuation.only (b : Level) (n : Nat) : Valuation where
  param p := if b = .param p then n else 0
  mvar i := if b = .mvar ⟨i, none⟩ then n else 0

lemma value_only_self (hb : b.IsAtom) (hplain : b.Plain) (hne : b ≠ .zero) (n : Nat) : b.value (.only b n) = n := by
  cases b with
  | zero => exact absurd rfl hne
  | param p => exact if_pos rfl
  | mvar id =>
    have hid : id.hint = none := hplain id (List.mem_singleton_self id)
    exact if_pos (congrArg mvar (congrArg (Id.mk id.number) hid))
  | succ l | max l r | imax l r => exact hb.elim

lemma value_only_of_ne {c : Level} (hc : c.IsAtom) (hplain : c.Plain) (hne : b ≠ c) (n : Nat) :
    c.value (.only b n) = 0 := by
  cases c with
  | zero => rfl
  | param p => exact if_neg hne
  | mvar id =>
    have hid : id.hint = none := hplain id (List.mem_singleton_self id)
    refine if_neg fun h => hne (h.trans (congrArg mvar ?_))
    exact congrArg (Id.mk id.number) hid.symm
  | succ l | max l r | imax l r => exact hc.elim

/-- The bases are zero, parameters or metavariables. -/
def AtomicBases (ss : List Summand) : Prop :=
  ∀ s ∈ ss, s.base.IsAtom ∧ s.base.Plain

/-- A maximum of atoms that is always below another one is so by its summands. -/
lemma covers_of_summandsValue_le {ts : List Summand} (hss : AtomicBases ss) (hts : AtomicBases ts) (hne : ss ≠ [])
    (h : ∀ v, summandsValue v ts ≤ summandsValue v ss) : Covers ss ts := by
  intro t ht
  obtain ⟨htatom, htplain⟩ := hts t ht
  -- A value for the base of `t` that no other summand reaches.
  let n := summandsValue (.constant 0) ss + 1
  let v := Valuation.only t.base n
  obtain ⟨s, hs, hvalue⟩ := exists_summand_value v hne
  obtain ⟨hsatom, hsplain⟩ := hss s hs
  have hle : t.value v ≤ s.value v := by
    rw [← hvalue]
    exact Nat.le_trans (value_le_summandsValue v ht) (h v)
  by_cases hbase : t.base = s.base
  · refine ⟨s, hs, ?_, .inl hbase⟩
    rw [Summand.value, Summand.value, hbase] at hle
    omega
  have hsvalue : s.value v = s.offset := by
    rw [Summand.value, value_only_of_ne hsatom hsplain hbase, Nat.zero_add]
  by_cases hzero : t.base = .zero
  · refine ⟨s, hs, ?_, .inr hzero⟩
    rw [Summand.value] at hle
    omega
  · have hlarge : n ≤ s.offset := by
      rw [Summand.value, value_only_self htatom htplain hzero] at hle
      omega
    have hsmall : s.offset ≤ summandsValue (.constant 0) ss :=
      Nat.le_trans (Nat.le_add_left _ _) (value_le_summandsValue (.constant 0) hs)
    omega

lemma summandsValue_parts (v : Valuation) (l : Level) : summandsValue v l.parts = l.value v := by
  rw [← value_ofSummands, ← normalize_eq, value_normalize]

lemma atomicBases_parts (hl : l.Plain) (h : l.normalize.imaxDepth = 0) : AtomicBases l.normalize.parts := by
  obtain ⟨hbases, hown⟩ := parts_spec hl
  rw [normalize_eq, parts_ofSummands hbases hown]
  intro s hs
  obtain ⟨hbase, hplain⟩ := hbases.leaves s hs
  exact ⟨isAtom_of_isBase hbase (imaxDepth_of_mem_leaves h hs), hplain⟩

lemma normalize_eq_of_same {a : Level} (ha : a.Plain) (hb : b.Plain) (hA : a.normalize.imaxDepth = 0)
    (hB : b.normalize.imaxDepth = 0) (h : Same a b) : a.normalize = b.normalize := by
  have hvalue : ∀ v, summandsValue v a.normalize.parts = summandsValue v b.normalize.parts := by
    intro v
    rw [summandsValue_parts, summandsValue_parts, value_normalize, value_normalize, h]
  have hatomsA := atomicBases_parts ha hA
  have hatomsB := atomicBases_parts hb hB
  have hnormal : Equated a.normalize.parts b.normalize.parts :=
    ⟨covers_of_summandsValue_le hatomsA hatomsB (parts_ne_nil _) fun v => Nat.le_of_eq (hvalue v).symm,
      covers_of_summandsValue_le hatomsB hatomsA (parts_ne_nil _) fun v => Nat.le_of_eq (hvalue v)⟩
  rw [normalize_eq_iff ha hb]
  exact (equated_parts_normalize ha).symm.trans (hnormal.trans (equated_parts_normalize hb))

/-! ## Exactness -/

/-- Levels without `imax` in their normal forms pass for equal if they have the same values. -/
lemma isEquiv_of_same {hint : Nat → Option Name} {a : Level} (ha : a.Hinted hint) (hb : b.Hinted hint)
    (hA : a.normalize.imaxDepth = 0) (hB : b.normalize.imaxDepth = 0) (h : Same a b) : a.isEquiv b := by
  rw [isEquiv_iff_normalize, ← normalize_forget_eq_iff ha hb]
  refine normalize_eq_of_same (plain_forget a) (plain_forget b) ?_ ?_ fun v => ?_
  · rw [forget, normalize_remember, imaxDepth_remember, hA]
  · rw [forget, normalize_remember, imaxDepth_remember, hB]
  · rw [forget, forget, value_remember, value_remember, h]

/-- What the comparison of levels says about their values. Normal forms keep them, and the tests for positive levels and
for zero are exact. Equality and order are sound, and exact between normal forms without `imax`. -/
theorem comparison_exact {hint : Nat → Option Name} {a b : Level} (ha : a.Hinted hint) (hb : b.Hinted hint) :
    (∀ v, a.normalize.value v = a.value v) ∧
      (a.isNeverZero ↔ ∀ v, 0 < a.value v) ∧
      (a.isZero ↔ ∀ v, a.value v = 0) ∧
      (a.isEquiv b → ∀ v, a.value v = b.value v) ∧
      (a.isLeq b → ∀ v, a.value v ≤ b.value v) ∧
      (a.normalize.imaxDepth = 0 → b.normalize.imaxDepth = 0 →
        (a.isEquiv b ↔ ∀ v, a.value v = b.value v)) ∧
      ((a.max b).normalize.imaxDepth = 0 → b.normalize.imaxDepth = 0 →
        (a.isLeq b ↔ ∀ v, a.value v ≤ b.value v)) := by
  refine ⟨fun v => value_normalize v a, isNeverZero_iff, isZero_iff, value_eq_of_isEquiv, value_le_of_isLeq,
    fun hA hB => ⟨value_eq_of_isEquiv, isEquiv_of_same ha hb hA hB⟩,
    fun hmax hB => ⟨value_le_of_isLeq, fun h => ?_⟩⟩
  have hboth : (a.max b).Hinted hint := List.forall_mem_append.mpr ⟨ha, hb⟩
  refine isEquiv_of_same hboth hb hmax hB fun v => ?_
  have hle := h v
  rw [value]
  omega

/-- `v` is below `imax v (u + 1)`: their values say so, and the second has no `imax` in its normal form. -/
theorem isLeq_imax_succ :
    let u : Id := ⟨7, some ⟨"u"⟩⟩
    let a : Level := .param ⟨"v"⟩
    let b : Level := .imax (.param ⟨"v"⟩) (.succ (.mvar u))
    a.Hinted (fun _ => u.hint) ∧ b.Hinted (fun _ => u.hint) ∧ (a.max b).normalize.imaxDepth = 0 ∧
      b.normalize.imaxDepth = 0 ∧ (∀ v, a.value v ≤ b.value v) ∧ a.isLeq b := by
  intro u a b
  have ha : a.Hinted fun _ => u.hint := by simp [a, Hinted, mvars]
  have hb : b.Hinted fun _ => u.hint := by simp [b, Hinted, mvars]
  have hmax : (a.max b).normalize.imaxDepth = 0 := by decide
  have hB : b.normalize.imaxDepth = 0 := by decide
  have hle : ∀ v, a.value v ≤ b.value v := by
    simp [a, b, value]
  obtain ⟨-, -, -, -, -, -, hexact⟩ := comparison_exact ha hb
  exact ⟨ha, hb, hmax, hB, hle, (hexact hmax hB).mpr hle⟩

end Level

end ProofAssistant
