import Mathlib.Data.List.Sort
import ProofAssistant.Proofs.LevelValue

/-!
# Maxima of summands

The normal form of a level lists summands in the order of their bases, each base once. `Level.Equated` compares maxima
summand by summand: each summand of the one is below a summand of the other on the same base, or is a constant below
it. Such maxima have the same normal form (`Level.Equated.ofSummands_eq`), since the sorted list without repeated bases
is unique.
-/

namespace ProofAssistant

open List

namespace Level

variable {a b : Level} {s t : Summand} {ss ts : List Summand} {parts : Level → List Summand}

/-! ## The order of levels -/

/-- The metavariables of the level are told apart by their numbers alone. -/
def Plain (l : Level) : Prop :=
  ∀ id ∈ l.mvars, id.hint = none

lemma Plain.of_hasMVar {l : Level} (h : l.hasMVar = false) : l.Plain := by
  have hnil : l.mvars = [] := by
    induction l with
    | succ l ih => exact ih h
    | max a b iha ihb | imax a b iha ihb =>
      obtain ⟨ha, hb⟩ := Bool.or_eq_false_iff.mp h
      rw [mvars, iha ha, ihb hb, append_nil]
    | mvar id => simp [hasMVar] at h
    | _ => rfl
  simp [Plain, hnil]

lemma plain_zero : Level.zero.Plain := by simp [Plain, mvars]

lemma plain_append (h : ∀ id ∈ a.mvars ++ b.mvars, id.hint = none) : a.Plain ∧ b.Plain :=
  ⟨fun id hid => h id (mem_append_left _ hid), fun id hid => h id (mem_append_right _ hid)⟩

/-- Levels that compare as equal are the same, if their metavariables are told apart by number. -/
lemma eq_of_compare (ha : a.Plain) (hb : b.Plain) (h : a.compare b = .eq) : a = b := by
  fun_induction Level.compare a b with
  | case1 a b ih => rw [ih ha hb h]
  | case2 a₁ b₁ a₂ b₂ ih₁ ih₂ | case3 a₁ b₁ a₂ b₂ ih₁ ih₂ =>
    rw [Ordering.then_eq_eq] at h
    obtain ⟨ha₁, hb₁⟩ := plain_append ha
    obtain ⟨ha₂, hb₂⟩ := plain_append hb
    rw [ih₁ ha₁ ha₂ h.1, ih₂ hb₁ hb₂ h.2]
  | case4 p q => rw [name_eq_of_compare h]
  | case5 i j =>
    have hn : i.number = j.number := Nat.compare_eq_eq.mp h
    have hi : i.hint = none := ha i (mem_singleton_self i)
    have hj : j.hint = none := hb j (mem_singleton_self j)
    cases i
    cases j
    simp_all
  | case6 a b h₁ h₂ h₃ h₄ h₅ =>
    have hr : a.rank = b.rank := Nat.compare_eq_eq.mp h
    -- Levels of equal rank have the same constructor, and only zero was not compared before.
    cases a <;> cases b <;> simp [rank] at hr
    · rfl
    · exact absurd rfl (h₁ _ _ rfl)
    · exact absurd rfl (h₂ _ _ _ _ rfl)
    · exact absurd rfl (h₃ _ _ _ _ rfl)
    · exact absurd rfl (h₄ _ _ rfl)
    · exact absurd rfl (h₅ _ _ rfl)

/-- What makes a comparison an order, at its first argument: strictly below is transitive, and what
compares as equal compares alike. -/
def ComparesAt {α : Type} (cmp : α → α → Ordering) (a : α) : Prop :=
  ∀ b c, (cmp a b = .lt → cmp b c ≠ .gt → cmp a c = .lt) ∧ (cmp a b = .eq → cmp a c = cmp b c)

lemma comparesAt_nat (n : Nat) : ComparesAt compare n := by
  intro k m
  simp only [Nat.compare_eq_lt, ne_eq, Nat.compare_eq_gt, Nat.compare_eq_eq]
  exact ⟨by omega, by rintro rfl; rfl⟩

lemma comparesAt_name (p : Name) : ComparesAt compare p := by
  intro q r
  constructor
  · intro hpq hqr
    have hle : (compare q.text r.text).isLE := Ordering.isLE_iff_ne_gt.mpr hqr
    show compare p.text r.text = .lt
    exact Std.TransCmp.lt_of_lt_of_isLE hpq hle
  · intro h
    rw [name_eq_of_compare h]

lemma compare_of_rank_ne (h : a.rank ≠ b.rank) : a.compare b = compare a.rank b.rank := by
  cases a <;> cases b <;> first | rfl | exact absurd rfl h

lemma compare_then_trans {x y z x' y' z' : Ordering} (hx : (x = .lt → y ≠ .gt → z = .lt) ∧ (x = .eq → z = y))
    (hx' : (x' = .lt → y' ≠ .gt → z' = .lt) ∧ (x' = .eq → z' = y')) :
    (x.then x' = .lt → y.then y' ≠ .gt → z.then z' = .lt) ∧ (x.then x' = .eq → z.then z' = y.then y') := by
  revert x y z x' y' z'
  decide

lemma rank_le_of_compare (h : a.compare b ≠ .gt) : a.rank ≤ b.rank := by
  by_contra hlt
  rw [compare_of_rank_ne (by omega)] at h
  exact h (Nat.compare_eq_gt.mpr (by omega))

/-- Levels that are not all built in the same way compare by rank, so only those of equal rank count. -/
private lemma comparesAt_of_rank (h : ∀ b c, b.rank = a.rank → c.rank = a.rank →
    (a.compare b = .lt → b.compare c ≠ .gt → a.compare c = .lt) ∧
      (a.compare b = .eq → a.compare c = b.compare c)) : ComparesAt Level.compare a := by
  intro b c
  by_cases hranks : b.rank = a.rank ∧ c.rank = a.rank
  · exact h b c hranks.1 hranks.2
  constructor
  · intro hab hbc
    have hab := rank_le_of_compare (by rw [hab]; decide : a.compare b ≠ .gt)
    have hbc := rank_le_of_compare hbc
    rw [compare_of_rank_ne (by omega)]
    exact Nat.compare_eq_lt.mpr (by omega)
  · intro hab
    have hrank : a.rank = b.rank := by
      by_contra hne
      rw [compare_of_rank_ne hne] at hab
      exact hne (Nat.compare_eq_eq.mp hab)
    rw [compare_of_rank_ne (by omega : a.rank ≠ c.rank), compare_of_rank_ne (by omega : b.rank ≠ c.rank), hrank]

/-- Comparison is an order of levels. -/
lemma comparesAt_compare (a : Level) : ComparesAt Level.compare a := by
  induction a with
  | zero =>
    refine comparesAt_of_rank fun b c hb hc => ?_
    cases b <;> simp [rank] at hb
    exact ⟨by rintro ⟨⟩, fun _ => rfl⟩
  | succ a ih =>
    refine comparesAt_of_rank fun b c hb hc => ?_
    cases b <;> simp [rank] at hb
    cases c <;> simp [rank] at hc
    exact ih _ _
  | max a₁ a₂ ih₁ ih₂ | imax a₁ a₂ ih₁ ih₂ =>
    refine comparesAt_of_rank fun b c hb hc => ?_
    cases b <;> simp [rank] at hb
    cases c <;> simp [rank] at hc
    exact compare_then_trans (ih₁ _ _) (ih₂ _ _)
  | param p =>
    refine comparesAt_of_rank fun b c hb hc => ?_
    cases b <;> simp [rank] at hb
    cases c <;> simp [rank] at hc
    exact comparesAt_name _ _ _
  | mvar i =>
    refine comparesAt_of_rank fun b c hb hc => ?_
    cases b <;> simp [rank] at hb
    cases c <;> simp [rank] at hc
    exact comparesAt_nat _ _ _

lemma compare_lt_trans {c : Level} (hab : a.compare b = .lt) (hbc : b.compare c = .lt) : a.compare c = .lt :=
  (comparesAt_compare a b c).1 hab (by rw [hbc]; decide)

lemma swap_compare (a b : Level) : (a.compare b).swap = b.compare a := by
  fun_induction Level.compare a b with
  | case1 a b ih => exact ih
  | case2 a₁ b₁ a₂ b₂ ih₁ ih₂ | case3 a₁ b₁ a₂ b₂ ih₁ ih₂ =>
    rw [Ordering.swap_then, ih₁, ih₂]
    rfl
  | case4 p q =>
    show (compare p.text q.text).swap = compare q.text p.text
    exact Std.OrientedCmp.eq_swap.symm
  | case5 i j => exact Nat.compare_swap i.number j.number
  | case6 a b h₁ h₂ h₃ h₄ h₅ =>
    rw [Nat.compare_swap]
    by_cases hrank : b.rank = a.rank
    · cases a <;> cases b <;> simp [rank] at hrank
      · rfl
      · exact absurd rfl (h₁ _ _ rfl)
      · exact absurd rfl (h₂ _ _ _ _ rfl)
      · exact absurd rfl (h₃ _ _ _ _ rfl)
      · exact absurd rfl (h₄ _ _ rfl)
      · exact absurd rfl (h₅ _ _ rfl)
    · exact (compare_of_rank_ne hrank).symm

lemma compare_lt_of_gt (h : a.compare b = .gt) : b.compare a = .lt := by
  rw [← swap_compare, h]
  rfl

lemma compare_self (a : Level) : a.compare a = .eq := by
  have h := swap_compare a a
  cases hcmp : a.compare a with
  | eq => rfl
  | lt => simp [hcmp] at h
  | gt => simp [hcmp] at h

/-! ## Maxima of summands -/

namespace Summand

/-- The one summand is below the other whatever the value of their bases. -/
def Le (s t : Summand) : Prop :=
  s.offset ≤ t.offset ∧ (s.base = t.base ∨ s.base = .zero)

lemma Le.refl (s : Summand) : s.Le s := ⟨Nat.le_refl _, .inl rfl⟩

lemma Le.trans {u : Summand} (h : s.Le t) (h' : t.Le u) : s.Le u := by
  obtain ⟨hoffset, hbase⟩ := h
  obtain ⟨hoffset', hbase'⟩ := h'
  refine ⟨Nat.le_trans hoffset hoffset', ?_⟩
  rcases hbase with hbase | hbase
  · rw [hbase]
    exact hbase'
  · exact .inr hbase

/-- Adds a number. -/
def add (s : Summand) (k : Nat) : Summand :=
  ⟨s.base, s.offset + k⟩

end Summand

/-- Each summand of the second list is below one of the first. -/
def Covers (ss ts : List Summand) : Prop :=
  ∀ t ∈ ts, ∃ s ∈ ss, t.Le s

/-- Each of the two maxima is below the other by its summands. -/
def Equated (ss ts : List Summand) : Prop :=
  Covers ss ts ∧ Covers ts ss

lemma Covers.refl (ss : List Summand) : Covers ss ss :=
  fun s hs => ⟨s, hs, .refl s⟩

lemma Covers.trans {us : List Summand} (h : Covers ss ts) (h' : Covers ts us) : Covers ss us := by
  intro u hu
  obtain ⟨t, ht, hut⟩ := h' u hu
  obtain ⟨s, hs, hts⟩ := h t ht
  exact ⟨s, hs, hut.trans hts⟩

lemma Covers.of_subset (h : ts ⊆ ss) : Covers ss ts :=
  fun t ht => ⟨t, h ht, .refl t⟩

lemma Covers.append {ss' ts' : List Summand} (h : Covers ss ts) (h' : Covers ss' ts') :
    Covers (ss ++ ss') (ts ++ ts') := by
  intro t ht
  rcases mem_append.mp ht with ht | ht
  · obtain ⟨s, hs, hts⟩ := h t ht
    exact ⟨s, mem_append_left _ hs, hts⟩
  · obtain ⟨s, hs, hts⟩ := h' t ht
    exact ⟨s, mem_append_right _ hs, hts⟩

lemma Covers.map_add (h : Covers ss ts) (k : Nat) : Covers (ss.map (·.add k)) (ts.map (·.add k)) := by
  intro u hu
  obtain ⟨t, ht, rfl⟩ := mem_map.mp hu
  obtain ⟨s, hs, hoffset, hbase⟩ := h t ht
  exact ⟨s.add k, mem_map_of_mem hs, Nat.add_le_add_right hoffset k, hbase⟩

namespace Equated

variable {ss ts : List Summand}

lemma refl (ss : List Summand) : Equated ss ss := ⟨.refl ss, .refl ss⟩

lemma symm (h : Equated ss ts) : Equated ts ss := ⟨h.2, h.1⟩

lemma trans {us : List Summand} (h : Equated ss ts) (h' : Equated ts us) : Equated ss us :=
  ⟨h.1.trans h'.1, h'.2.trans h.2⟩

lemma append {ss' ts' : List Summand} (h : Equated ss ts) (h' : Equated ss' ts') : Equated (ss ++ ss') (ts ++ ts') :=
  ⟨h.1.append h'.1, h.2.append h'.2⟩

lemma map_add (h : Equated ss ts) (k : Nat) : Equated (ss.map (·.add k)) (ts.map (·.add k)) :=
  ⟨h.1.map_add k, h.2.map_add k⟩

instance : Trans Equated Equated Equated := ⟨trans⟩

end Equated

lemma Equated.of_perm (h : ss.Perm ts) : Equated ss ts :=
  ⟨.of_subset h.symm.subset, .of_subset h.subset⟩

/-- Puts a maximum of summands for each base. -/
def expand (parts : Level → List Summand) (ss : List Summand) : List Summand :=
  ss.flatMap fun s => (parts s.base).map (·.add s.offset)

lemma mem_expand : t ∈ expand parts ss ↔ ∃ s ∈ ss, ∃ u ∈ parts s.base, u.add s.offset = t := by
  simp [expand]

lemma expand_append (parts : Level → List Summand) (ss ts : List Summand) :
    expand parts (ss ++ ts) = expand parts ss ++ expand parts ts :=
  flatMap_append

lemma expand_singleton (parts : Level → List Summand) (l : Level) : expand parts [⟨l, 0⟩] = parts l := by
  simp [expand, Summand.add]

lemma expand_map_add (parts : Level → List Summand) (ss : List Summand) (k : Nat) :
    expand parts (ss.map (·.add k)) = (expand parts ss).map (·.add k) := by
  simp only [expand, flatMap_map, map_flatMap, map_map]
  congr 1
  funext s
  exact map_congr_left fun t _ => congrArg (Summand.mk t.base) (Nat.add_assoc _ _ _).symm

/-- Putting maxima for the bases keeps which maximum is below which, as zero stands for zero. -/
lemma Covers.expand (hne : ∀ l, parts l ≠ []) (hzero : parts .zero = [⟨.zero, 0⟩]) (h : Covers ss ts) :
    Covers (expand parts ss) (expand parts ts) := by
  intro u hu
  obtain ⟨t, ht, v, hv, rfl⟩ := mem_expand.mp hu
  obtain ⟨s, hs, hoffset, hbase⟩ := h t ht
  rcases hbase with hbase | hbase
  · exact ⟨v.add s.offset, mem_expand.mpr ⟨s, hs, v, hbase ▸ hv, rfl⟩, Nat.add_le_add_left hoffset _, .inl rfl⟩
  · -- a constant is below every summand that is put for the other base
    obtain rfl : v = ⟨.zero, 0⟩ := by simpa [hbase, hzero] using hv
    obtain ⟨w, hw⟩ := exists_mem_of_ne_nil _ (hne s.base)
    refine ⟨w.add s.offset, mem_expand.mpr ⟨s, hs, w, hw, rfl⟩, ?_, .inr rfl⟩
    show 0 + t.offset ≤ w.offset + s.offset
    omega

lemma Equated.expand (hne : ∀ l, parts l ≠ []) (hzero : parts .zero = [⟨.zero, 0⟩]) (h : Equated ss ts) :
    Equated (expand parts ss) (expand parts ts) :=
  ⟨h.1.expand hne hzero, h.2.expand hne hzero⟩

/-! ## Sorting and merging -/

/-- The summands stand in ascending order of their bases, and no base stands twice. -/
def Ascending (ss : List Summand) : Prop :=
  ss.Pairwise fun s t => s.base.compare t.base = .lt

/-- The bases have plain metavariables. -/
def PlainBases (ss : List Summand) : Prop :=
  ∀ s ∈ ss, s.base.Plain

lemma base_of_mem_insert (h : t ∈ Summand.insert s ss) : t.base = s.base ∨ ∃ u ∈ ss, u.base = t.base := by
  induction ss with
  | nil =>
    obtain rfl := mem_singleton.mp h
    exact .inl rfl
  | cons u us ih =>
    unfold Summand.insert at h
    split at h
    · rcases mem_cons.mp h with rfl | h
      · exact .inl rfl
      · exact .inr ⟨t, h, rfl⟩
    · rcases mem_cons.mp h with rfl | h
      · exact .inr ⟨u, mem_cons_self, rfl⟩
      · exact .inr ⟨t, mem_cons_of_mem _ h, rfl⟩
    · rcases mem_cons.mp h with rfl | h
      · exact .inr ⟨t, mem_cons_self, rfl⟩
      · rcases ih h with h | ⟨v, hv, hbase⟩
        · exact .inl h
        · exact .inr ⟨v, mem_cons_of_mem _ hv, hbase⟩

lemma Ascending.insert (h : Ascending ss) (s : Summand) : Ascending (Summand.insert s ss) := by
  induction ss with
  | nil => exact pairwise_singleton _ _
  | cons t ts ih =>
    obtain ⟨ht, hts⟩ := pairwise_cons.mp h
    unfold Summand.insert
    split
    · rename_i hlt
      refine pairwise_cons.mpr ⟨fun u hu => ?_, h⟩
      rcases mem_cons.mp hu with rfl | hu
      · exact hlt
      · exact compare_lt_trans hlt (ht u hu)
    · exact pairwise_cons.mpr ⟨ht, hts⟩
    · rename_i hgt
      refine pairwise_cons.mpr ⟨fun u hu => ?_, ih hts⟩
      rcases base_of_mem_insert hu with hbase | ⟨v, hv, hbase⟩
      · rw [hbase]
        exact compare_lt_of_gt hgt
      · rw [← hbase]
        exact ht v hv

lemma Ascending.eq_of_base (h : Ascending ss) (hs : s ∈ ss) (ht : t ∈ ss) (hbase : s.base = t.base) : s = t := by
  have hnodup : (ss.map Summand.base).Nodup := by
    refine pairwise_map.mpr (h.imp fun {s t} hlt heq => ?_)
    rw [heq, compare_self] at hlt
    exact Ordering.noConfusion hlt
  exact inj_on_of_nodup_map hnodup hs ht hbase

lemma Equated.insert (hs : s.base.Plain) (hss : PlainBases ss) : Equated (Summand.insert s ss) (s :: ss) := by
  induction ss with
  | nil => exact .refl _
  | cons t ts ih =>
    obtain ⟨ht, hts⟩ := forall_mem_cons.mp hss
    unfold Summand.insert
    split
    · exact .refl _
    · rename_i heq
      have hbase : s.base = t.base := eq_of_compare hs ht heq
      constructor
      · intro u hu
        rcases mem_cons.mp hu with rfl | hu
        · exact ⟨_, mem_cons_self, Nat.le_max_right _ _, .inl hbase⟩
        rcases mem_cons.mp hu with rfl | hu
        · exact ⟨_, mem_cons_self, Nat.le_max_left _ _, .inl rfl⟩
        · exact ⟨u, mem_cons_of_mem _ hu, .refl u⟩
      · intro u hu
        rcases mem_cons.mp hu with rfl | hu
        · rcases Nat.le_total t.offset s.offset with hle | hle
          · exact ⟨s, mem_cons_self, Nat.max_le.mpr ⟨hle, Nat.le_refl _⟩, .inl hbase.symm⟩
          · exact ⟨t, by simp, Nat.max_le.mpr ⟨Nat.le_refl _, hle⟩, .inl rfl⟩
        · exact ⟨u, by simp [hu], .refl u⟩
    · exact (Equated.append (.refl [t]) (ih hts)).trans (.of_perm (.swap s t ts))

/-! ## Normal forms -/

lemma atomsOf_spec (hss : PlainBases ss) : Ascending (atomsOf ss) ∧ (∀ s ∈ atomsOf ss, s.base ≠ .zero) ∧
      Equated (atomsOf ss) (ss.filter (·.base ≠ .zero)) ∧ PlainBases (atomsOf ss) := by
  -- The list that has been sorted so far is merged with what comes.
  suffices ∀ atoms, Ascending atoms → (∀ s ∈ atoms, s.base ≠ .zero) → PlainBases atoms →
      let result := ss.foldl (fun atoms s => if s.base = .zero then atoms else Summand.insert s atoms) atoms
      Ascending result ∧ (∀ s ∈ result, s.base ≠ .zero) ∧
        Equated result (atoms ++ ss.filter (·.base ≠ .zero)) ∧ PlainBases result from
    this [] List.Pairwise.nil (by simp) (by simp [PlainBases])
  induction ss with
  | nil =>
    intro atoms hasc hne hplain
    exact ⟨hasc, hne, by simpa using Equated.refl atoms, hplain⟩
  | cons s ss ih =>
    intro atoms hasc hne hplain
    obtain ⟨hs, hss⟩ := forall_mem_cons.mp hss
    by_cases hzero : s.base = .zero
    · simpa [hzero] using ih hss atoms hasc hne hplain
    · have hbases : ∀ t ∈ Summand.insert s atoms, t.base = s.base ∨ ∃ u ∈ atoms, u.base = t.base :=
        fun t ht => base_of_mem_insert ht
      have hne' : ∀ t ∈ Summand.insert s atoms, t.base ≠ .zero := by
        intro t ht
        rcases hbases t ht with hbase | ⟨u, hu, hbase⟩
        · rwa [hbase]
        · rw [← hbase]
          exact hne u hu
      have hplain' : PlainBases (Summand.insert s atoms) := by
        intro t ht
        rcases hbases t ht with hbase | ⟨u, hu, hbase⟩
        · rwa [hbase]
        · rw [← hbase]
          exact hplain u hu
      obtain ⟨hasc', hnonzero, hequated, hplain''⟩ := ih hss _ (hasc.insert s) hne' hplain'
      refine ⟨by simpa [hzero] using hasc', by simpa [hzero] using hnonzero, ?_, by simpa [hzero] using hplain''⟩
      have hstep := (Equated.insert hs hplain).append (.refl (ss.filter (·.base ≠ .zero)))
      have hperm : (s :: atoms ++ ss.filter (·.base ≠ .zero)).Perm
          (atoms ++ (s :: ss).filter (·.base ≠ .zero)) := by
        simpa [hzero] using perm_middle.symm
      simpa [hzero] using hequated.trans (hstep.trans (.of_perm hperm))

/-- The constant is above every summand on zero, and is one of them unless it is zero. -/
lemma constantOf_spec (ss : List Summand) : (∀ s ∈ ss, s.base = .zero → s.offset ≤ constantOf ss) ∧
      (constantOf ss = 0 ∨ ⟨.zero, constantOf ss⟩ ∈ ss) := by
  suffices ∀ k,
      let result := ss.foldl (fun k s => if s.base = .zero then Nat.max k s.offset else k) k
      k ≤ result ∧ (∀ s ∈ ss, s.base = .zero → s.offset ≤ result) ∧ (result = k ∨ ⟨.zero, result⟩ ∈ ss) from
    (this 0).2
  induction ss with
  | nil => simp
  | cons s ss ih =>
    intro k
    rw [foldl_cons]
    by_cases hzero : s.base = .zero
    · rw [if_pos hzero]
      obtain ⟨hle, hall, hmem⟩ := ih (Nat.max k s.offset)
      obtain ⟨hk, hs⟩ := Nat.max_le.mp hle
      refine ⟨hk, forall_mem_cons.mpr ⟨fun _ => hs, hall⟩, ?_⟩
      rcases hmem with hmem | hmem
      · rcases Nat.le_total s.offset k with hsk | hsk
        · exact .inl (hmem.trans (Nat.max_eq_left hsk))
        · refine .inr (mem_cons.mpr (.inl ?_))
          have hmax : Nat.max k s.offset = s.offset := Nat.max_eq_right hsk
          rw [hmem, hmax, ← hzero]
      · exact .inr (mem_cons_of_mem _ hmem)
    · rw [if_neg hzero]
      obtain ⟨hle, hall, hmem⟩ := ih k
      refine ⟨hle, forall_mem_cons.mpr ⟨fun h => absurd h hzero, hall⟩, ?_⟩
      exact hmem.imp_right (mem_cons_of_mem _)

/-- The summands that are written in a normal form. -/
def written (ss : List Summand) : List Summand :=
  if 0 < constantOf ss && (atomsOf ss).all (·.offset < constantOf ss) then
    ⟨.zero, constantOf ss⟩ :: atomsOf ss
  else atomsOf ss

lemma ofSummands_eq (ss : List Summand) : ofSummands ss = maxOf ((written ss).map Summand.toLevel) := by
  unfold ofSummands written
  dsimp only
  split <;> rfl

/-- Every base that is written is zero or one of the bases. -/
lemma base_of_mem_written (ht : t ∈ written ss) : t.base = .zero ∨ ∃ s ∈ ss, s.base = t.base := by
  have hatom : t ∈ atomsOf ss → ∃ s ∈ ss, s.base = t.base := by
    suffices ∀ atoms,
        t ∈ ss.foldl (fun atoms s => if s.base = .zero then atoms else Summand.insert s atoms) atoms →
        (∃ s ∈ atoms, s.base = t.base) ∨ ∃ s ∈ ss, s.base = t.base from fun h => by simpa using this [] h
    clear ht
    induction ss with
    | nil => exact fun atoms h => .inl ⟨t, h, rfl⟩
    | cons s ss ih =>
      intro atoms h
      rw [foldl_cons] at h
      rcases ih _ h with ⟨u, hu, hbase⟩ | ⟨u, hu, hbase⟩
      · split at hu
        · exact .inl ⟨u, hu, hbase⟩
        · rcases base_of_mem_insert hu with hbase' | ⟨v, hv, hbase'⟩
          · exact .inr ⟨s, mem_cons_self, hbase'.symm.trans hbase⟩
          · exact .inl ⟨v, hv, hbase'.trans hbase⟩
      · exact .inr ⟨u, mem_cons_of_mem _ hu, hbase⟩
  unfold written at ht
  split at ht
  · rcases mem_cons.mp ht with rfl | ht
    · exact .inl rfl
    · exact .inr (hatom ht)
  · exact .inr (hatom ht)

/-- What holds of zero and the bases, and is kept by successor and maximum, holds of the normal form. -/
lemma ofSummands_induction {P : Level → Prop} (zero : P .zero) (succ : ∀ l, P l → P l.succ)
    (max : ∀ a b, P a → P b → P (a.max b)) (h : ∀ s ∈ ss, P s.base) : P (ofSummands ss) := by
  have hlevel : ∀ s ∈ written ss, P s.toLevel := by
    intro s hs
    have hbase : P s.base := by
      rcases base_of_mem_written hs with hbase | ⟨t, ht, hbase⟩
      · exact hbase ▸ zero
      · exact hbase ▸ h t ht
    unfold Summand.toLevel
    induction s.offset with
    | zero => exact hbase
    | succ k ih => exact succ _ ih
  have hfold : ∀ (ls : List Level) (l : Level), P l → (∀ l' ∈ ls, P l') → P (ls.foldl .max l) := by
    intro ls
    induction ls with
    | nil => exact fun l hl _ => hl
    | cons l' ls ih =>
      intro l hl hls
      obtain ⟨hl', hls⟩ := forall_mem_cons.mp hls
      exact ih _ (max _ _ hl hl') hls
  rw [ofSummands_eq]
  cases hw : written ss with
  | nil => exact zero
  | cons s ts =>
    rw [hw] at hlevel
    obtain ⟨hs, hts⟩ := forall_mem_cons.mp hlevel
    exact hfold _ _ hs (forall_mem_map.mpr hts)

lemma plain_ofSummands (hss : PlainBases ss) : (ofSummands ss).Plain :=
  ofSummands_induction plain_zero (fun _ h => h) (fun _ _ ha hb => forall_mem_append.mpr ⟨ha, hb⟩) hss

lemma imaxDepth_ofSummands {d : Nat} (hss : ∀ s ∈ ss, s.base.imaxDepth ≤ d) : (ofSummands ss).imaxDepth ≤ d :=
  ofSummands_induction (Nat.zero_le d) (fun _ h => h) (fun _ _ ha hb => Nat.max_le.mpr ⟨ha, hb⟩) hss

section

variable (hss : PlainBases ss)
include hss

lemma exists_atom (hs : s ∈ ss) (hne : s.base ≠ .zero) :
    ∃ t ∈ atomsOf ss, t.base = s.base ∧ s.offset ≤ t.offset := by
  obtain ⟨_, _, hequated, _⟩ := atomsOf_spec hss
  obtain ⟨t, ht, hoffset, hbase⟩ := hequated.1 s (by simp [hs, hne])
  exact ⟨t, ht, (hbase.resolve_right hne).symm, hoffset⟩

lemma exists_of_atom (ht : t ∈ atomsOf ss) :
    ∃ s ∈ ss, s.base = t.base ∧ t.offset ≤ s.offset := by
  obtain ⟨_, hne, hequated, _⟩ := atomsOf_spec hss
  obtain ⟨s, hs, hoffset, hbase⟩ := hequated.2 t ht
  exact ⟨s, (mem_filter.mp hs).1, (hbase.resolve_right (hne t ht)).symm, hoffset⟩

/-- An atom of a maximum that is below another one is below an atom of that one on the same base. -/
private lemma Covers.atom (hts : PlainBases ts) (h : Covers ts ss) {u : Summand}
    (hu : u ∈ atomsOf ss) : ∃ v ∈ atomsOf ts, v.base = u.base ∧ u.offset ≤ v.offset := by
  have hzero := (atomsOf_spec hss).2.1 u hu
  obtain ⟨s, hs, hbase, hle⟩ := exists_of_atom hss hu
  obtain ⟨t, ht, hle', hbase'⟩ := h s hs
  have hbase' := hbase'.resolve_right (hbase ▸ hzero)
  obtain ⟨v, hv, hbase'', hle''⟩ := exists_atom hts ht (hbase' ▸ hbase ▸ hzero)
  exact ⟨v, hv, by rw [hbase'', ← hbase', hbase], by omega⟩

private lemma atomsOf_subset (hts : PlainBases ts) (h : Equated ss ts) :
    atomsOf ss ⊆ atomsOf ts := by
  intro u hu
  -- From the atom to one of the other maximum on the same base, and back.
  obtain ⟨v, hv, hbase, hle⟩ := h.2.atom hss hts hu
  obtain ⟨w, hw, hbase', hle'⟩ := h.1.atom hts hss hv
  obtain rfl : w = u := (atomsOf_spec hss).1.eq_of_base hw hu (hbase'.trans hbase)
  obtain rfl : v = w := by
    cases v
    cases w
    simp_all
    omega
  exact hv

lemma Equated.atomsOf_eq (hts : PlainBases ts) (h : Equated ss ts) :
    atomsOf ss = atomsOf ts := by
  have hirrefl : Std.Irrefl fun s t : Summand => s.base.compare t.base = .lt :=
    ⟨fun s (hs : s.base.compare s.base = .lt) => by simp [compare_self] at hs⟩
  have hanti : Std.Antisymm fun s t : Summand => s.base.compare t.base = .lt :=
    ⟨fun s t hs ht => (hirrefl.irrefl s (compare_lt_trans hs ht)).elim⟩
  exact List.Subset.antisymm_of_pairwise (atomsOf_spec hss).1 (atomsOf_spec hts).1
    (atomsOf_subset hss hts h) (atomsOf_subset hts hss h.symm)

end

/-- A constant above all atoms is the same for maxima that are below each other. -/
private lemma Equated.le_constantOf (hts : PlainBases ts) (h : Equated ss ts) {k : Nat} (hk : ⟨.zero, k⟩ ∈ ss)
    (habove : ∀ u ∈ atomsOf ts, u.offset < k) : k ≤ constantOf ts := by
  obtain ⟨t, ht, hle, _⟩ := h.2 _ hk
  by_cases hzero : t.base = .zero
  · exact Nat.le_trans hle ((constantOf_spec ts).1 t ht hzero)
  · obtain ⟨u, hu, _, hle'⟩ := exists_atom hts ht hzero
    have := habove u hu
    simp only at hle
    omega

private lemma Equated.written_eq_of_above (hss : PlainBases ss) (hts : PlainBases ts) (h : Equated ss ts)
    (hpos : 0 < constantOf ss) (habove : ∀ u ∈ atomsOf ss, u.offset < constantOf ss) :
    constantOf ts = constantOf ss := by
  have hatoms := h.atomsOf_eq hss hts
  have hmem := (constantOf_spec ss).2.resolve_left (by omega)
  have hle := h.le_constantOf hts hmem (hatoms ▸ habove)
  have hmem' := (constantOf_spec ts).2.resolve_left (by omega)
  have hge := h.symm.le_constantOf hss hmem' fun u hu => Nat.lt_of_lt_of_le (habove u hu) hle
  omega

/-- Maxima that are below each other by their summands have the same normal form. -/
lemma Equated.ofSummands_eq (hss : PlainBases ss) (hts : PlainBases ts) (h : Equated ss ts) :
    ofSummands ss = ofSummands ts := by
  have hatoms := h.atomsOf_eq hss hts
  rw [Level.ofSummands_eq, Level.ofSummands_eq]
  unfold written
  by_cases hs : 0 < constantOf ss ∧ ∀ u ∈ atomsOf ss, u.offset < constantOf ss
  · rw [h.written_eq_of_above hss hts hs.1 hs.2, hatoms]
  · by_cases ht : 0 < constantOf ts ∧ ∀ u ∈ atomsOf ts, u.offset < constantOf ts
    · rw [h.symm.written_eq_of_above hts hss ht.1 ht.2, hatoms]
    · rw [if_neg (by simpa using hs), if_neg (by simpa using ht), hatoms]

end Level

end ProofAssistant
