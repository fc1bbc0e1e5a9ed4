import ProofAssistant.Proofs.LevelMaximum

/-!
# Normal forms under substitution

A normal form shows the summands that it was made of (`Level.leaves`), up to order and to those that are below others.
So normal forms are equal exactly if the maxima of the summands are (`Level.normalize_eq_iff`). A substitution puts a
maximum for each base. An `imax` that is stuck may then become a maximum or vanish, but alike in all levels with the
same normal form (`Level.isEquiv_subst`).
-/

namespace ProofAssistant

open List Level

namespace Level

variable {b l a : Level} {ss : List Summand} {f : Name → Level} {g : Id → Level}

/-! ## Reading a normal form back -/

/-- The summands that a level shows, an `imax` as a base. -/
def leaves : Level → List Summand
  | .max a b => a.leaves ++ b.leaves
  | .succ l => l.leaves.map (·.add 1)
  | l => [⟨l, 0⟩]

/-- A level that stands as a base in a normal form. -/
def IsBase : Level → Prop
  | .zero | .param _ | .mvar _ => True
  | .imax _ b => b.isNeverZero = false
  | .succ _ | .max .. => False

lemma IsBase.leaves_eq (h : b.IsBase) : b.leaves = [⟨b, 0⟩] := by
  cases b with
  | succ l => exact h.elim
  | max a b => exact h.elim
  | _ => rfl

lemma IsBase.not_isNeverZero (h : b.IsBase) : b.isNeverZero = false := by
  cases b with
  | succ l => exact h.elim
  | max a b => exact h.elim
  | imax a b => exact h
  | _ => rfl

lemma leaves_toLevel {s : Summand} (h : s.base.IsBase) : s.toLevel.leaves = [s] := by
  obtain ⟨b, k⟩ := s
  induction k with
  | zero => exact h.leaves_eq
  | succ k ih =>
    show (addOffset b k).leaves.map (·.add 1) = _
    rw [show (addOffset b k).leaves = [⟨b, k⟩] from ih h]
    rfl

lemma leaves_foldl_max (l : Level) (ls : List Level) : (ls.foldl .max l).leaves = l.leaves ++ ls.flatMap leaves := by
  induction ls generalizing l with
  | nil => simp
  | cons l' ls ih => rw [foldl_cons, ih, leaves, flatMap_cons, append_assoc]

lemma leaves_maxOf (hss : ∀ s ∈ ss, s.base.IsBase) (hne : ss ≠ []) :
    (maxOf (ss.map Summand.toLevel)).leaves = ss := by
  have hall : ∀ {ss : List Summand}, (∀ s ∈ ss, s.base.IsBase) →
      (ss.map Summand.toLevel).flatMap leaves = ss := by
    intro ss hss
    induction ss with
    | nil => rfl
    | cons s ss ih =>
      obtain ⟨hs, hss⟩ := forall_mem_cons.mp hss
      rw [map_cons, flatMap_cons, leaves_toLevel hs, ih hss]
      rfl
  cases ss with
  | nil => exact absurd rfl hne
  | cons s ss =>
    obtain ⟨hs, hss⟩ := forall_mem_cons.mp hss
    rw [map_cons, maxOf, leaves_foldl_max, leaves_toLevel hs, hall hss]
    rfl

/-- The bases are such as stand in a normal form, and have plain metavariables. -/
def BasesIn (ss : List Summand) : Prop :=
  ∀ s ∈ ss, s.base.IsBase ∧ s.base.Plain

lemma BasesIn.plain (h : BasesIn ss) : PlainBases ss := fun s hs => (h s hs).2

lemma BasesIn.written (h : BasesIn ss) : BasesIn (written ss) := by
  have hatoms : BasesIn (atomsOf ss) := by
    intro t ht
    obtain ⟨s, hs, hbase, _⟩ := exists_of_atom h.plain ht
    exact hbase ▸ h s hs
  unfold Level.written
  split
  · exact List.forall_mem_cons.mpr ⟨⟨trivial, plain_zero⟩, hatoms⟩
  · exact hatoms

lemma equated_written (hss : PlainBases ss) (hne : written ss ≠ []) : Equated (written ss) ss := by
  have hfrom : Covers ss (atomsOf ss) := by
    intro t ht
    obtain ⟨s, hs, hbase, hle⟩ := exists_of_atom hss ht
    exact ⟨s, hs, hle, .inl hbase.symm⟩
  have hatom : ∀ s ∈ ss, s.base ≠ .zero → ∃ t ∈ atomsOf ss, s.Le t := by
    intro s hs hzero
    obtain ⟨t, ht, hbase, hle⟩ := exists_atom hss hs hzero
    exact ⟨t, ht, hle, .inl hbase.symm⟩
  have hconst := constantOf_spec ss
  unfold written at hne ⊢
  split
  · rename_i habove
    simp only [Bool.and_eq_true, decide_eq_true_eq] at habove
    constructor
    · intro s hs
      by_cases hzero : s.base = .zero
      · exact ⟨_, mem_cons_self, hconst.1 s hs hzero, .inr hzero⟩
      · obtain ⟨t, ht, hle⟩ := hatom s hs hzero
        exact ⟨t, mem_cons_of_mem _ ht, hle⟩
    · intro t ht
      rcases mem_cons.mp ht with rfl | ht
      · exact ⟨_, hconst.2.resolve_left (by omega), .refl _⟩
      · exact hfrom t ht
  · rename_i habove
    rw [if_neg habove] at hne
    refine ⟨fun s hs => ?_, hfrom⟩
    by_cases hzero : s.base = .zero
    · -- the constant is zero, or some atom is above it
      have hs := hconst.1 s hs hzero
      by_cases hpos : 0 < constantOf ss
      · simp [hpos] at habove
        obtain ⟨t, ht, hle⟩ := habove
        exact ⟨t, ht, by omega, .inr hzero⟩
      · obtain ⟨t, ht⟩ := exists_mem_of_ne_nil _ hne
        exact ⟨t, ht, by omega, .inr hzero⟩
    · exact hatom s hs hzero

/-- A normal form shows summands whose maximum is that of the ones it was made of. -/
lemma equated_leaves (hss : BasesIn ss) (hne : ss ≠ []) : Equated (ofSummands ss).leaves ss := by
  rw [ofSummands_eq]
  by_cases hnil : written ss = []
  · -- nothing is written only if all summands are the constant zero
    unfold written at hnil
    split at hnil
    · simp at hnil
    · rename_i habove
      have hconst : constantOf ss = 0 := by simpa [hnil] using habove
      rw [written, if_neg habove, hnil]
      constructor
      · intro s hs
        by_cases hzero : s.base = .zero
        · exact ⟨_, mem_singleton_self _, hconst ▸ (constantOf_spec ss).1 s hs hzero, .inr hzero⟩
        · obtain ⟨t, ht, _⟩ := exists_atom hss.plain hs hzero
          simp [hnil] at ht
      · intro t ht
        obtain rfl := mem_singleton.mp ht
        obtain ⟨s, hs⟩ := exists_mem_of_ne_nil _ hne
        exact ⟨s, hs, Nat.zero_le _, .inr rfl⟩
  · rw [leaves_maxOf (fun s hs => (hss.written s hs).1) hnil]
    exact equated_written hss.plain hnil

/-- Maxima with the same normal form are below each other by their summands. -/
lemma equated_of_ofSummands_eq {ts : List Summand} (hss : BasesIn ss) (hts : BasesIn ts) (hs : ss ≠ [])
    (ht : ts ≠ []) (h : ofSummands ss = ofSummands ts) : Equated ss ts :=
  (equated_leaves hss hs).symm.trans (h ▸ equated_leaves hts ht)

/-- A level is positive by its shape exactly if it shows an offset, or a base that is positive. -/
lemma isNeverZero_iff_leaves : l.isNeverZero ↔ ∃ s ∈ l.leaves, 0 < s.offset ∨ s.base.isNeverZero := by
  induction l with
  | succ l _ =>
    have hne : ∀ l : Level, l.leaves ≠ [] := by
      intro l
      induction l with
      | succ l ih => simpa [leaves] using ih
      | max a b iha _ => simp [leaves, iha]
      | _ => simp [leaves]
    obtain ⟨s, hs⟩ := exists_mem_of_ne_nil _ (hne l)
    exact ⟨fun _ => ⟨s.add 1, mem_map_of_mem hs, .inl (Nat.succ_pos _)⟩, fun _ => rfl⟩
  | max a b iha ihb =>
    rw [isNeverZero, Bool.or_eq_true, iha, ihb, leaves]
    simp only [mem_append, or_and_right, exists_or]
  | _ => simp [leaves]

lemma BasesIn.leaves (hss : BasesIn ss) : BasesIn (ofSummands ss).leaves := by
  rw [ofSummands_eq]
  by_cases hnil : Level.written ss = []
  · rw [hnil]
    exact List.forall_mem_singleton.mpr ⟨trivial, plain_zero⟩
  · rw [leaves_maxOf (fun s hs => (hss.written s hs).1) hnil]
    exact hss.written

lemma Covers.exists_pos {ts : List Summand} (h : Covers ss ts) (ht : ∃ t ∈ ts, 0 < t.offset) :
    ∃ s ∈ ss, 0 < s.offset := by
  obtain ⟨t, ht, hpos⟩ := ht
  obtain ⟨s, hs, hle, _⟩ := h t ht
  exact ⟨s, hs, Nat.lt_of_lt_of_le hpos hle⟩

lemma isNeverZero_ofSummands (hss : BasesIn ss) (hne : ss ≠ []) :
    (ofSummands ss).isNeverZero ↔ ∃ s ∈ ss, 0 < s.offset := by
  have hequated := equated_leaves hss hne
  rw [isNeverZero_iff_leaves]
  constructor
  · rintro ⟨s, hs, hpos | hpos⟩
    · exact hequated.2.exists_pos ⟨s, hs, hpos⟩
    · rw [(hss.leaves s hs).1.not_isNeverZero] at hpos
      exact absurd hpos Bool.false_ne_true
  · intro hpos
    obtain ⟨s, hs, hpos⟩ := hequated.1.exists_pos hpos
    exact ⟨s, hs, .inl hpos⟩

/-! ## The summands of a level -/

/-- The summands of a level. -/
def parts (l : Level) : List Summand :=
  summands l.imaxDepth l

lemma normalize_eq (l : Level) : l.normalize = ofSummands l.parts := rfl

lemma summands_succ (n : Nat) (l : Level) : summands n l.succ = (summands n l).map (·.add 1) := by
  cases n <;> rfl

lemma summands_max (n : Nat) (a b : Level) : summands n (a.max b) = summands n a ++ summands n b := by
  cases n <;> rfl

/-- Beyond the depth of a level its summands do not depend on the bound, and their bases are not nested
deeper than the level. -/
lemma summands_depth (n : Nat) (l : Level) (hl : l.imaxDepth ≤ n) :
    (∀ s ∈ summands n l, s.base.imaxDepth ≤ l.imaxDepth) ∧ ∀ d, n ≤ d → summands d l = summands n l := by
  induction n using Nat.strongRecOn generalizing l with
  | ind n ih =>
  induction l with
  | zero | param p | mvar id =>
    refine ⟨?_, fun d _ => by cases d <;> cases n <;> rfl⟩
    cases n <;> exact forall_mem_singleton.mpr (Nat.le_refl 0)
  | succ l ihl =>
    obtain ⟨hbases, heq⟩ := ihl hl
    refine ⟨?_, fun d hd => by rw [summands_succ, summands_succ, heq d hd]⟩
    rw [summands_succ]
    exact forall_mem_map.mpr hbases
  | max a b iha ihb =>
    obtain ⟨ha, hb⟩ := Nat.max_le.mp hl
    obtain ⟨hbasesA, heqA⟩ := iha ha
    obtain ⟨hbasesB, heqB⟩ := ihb hb
    refine ⟨?_, fun d hd => by rw [summands_max, summands_max, heqA d hd, heqB d hd]⟩
    rw [summands_max]
    exact forall_mem_append.mpr ⟨fun s hs => Nat.le_trans (hbasesA s hs) (Nat.le_max_left _ _),
      fun s hs => Nat.le_trans (hbasesB s hs) (Nat.le_max_right _ _)⟩
  | imax a b _ _ =>
    obtain ⟨m, rfl⟩ : ∃ m, n = m + 1 := ⟨n - 1, by rw [imaxDepth] at hl; omega⟩
    obtain ⟨ha, hb⟩ := Nat.max_le.mp (Nat.le_of_succ_le_succ hl)
    obtain ⟨hbasesA, heqA⟩ := ih m (Nat.lt_succ_self m) a ha
    obtain ⟨hbasesB, heqB⟩ := ih m (Nat.lt_succ_self m) b hb
    -- The second argument is taken apart once more in its normal form, which is not nested deeper.
    have hnormal := imaxDepth_ofSummands hbasesB
    obtain ⟨hbases, heq⟩ := ih m (Nat.lt_succ_self m) _ (Nat.le_trans hnormal hb)
    have hmax : (a.imax b).imaxDepth = Nat.max a.imaxDepth b.imaxDepth + 1 := rfl
    have hleft : a.imaxDepth ≤ Nat.max a.imaxDepth b.imaxDepth := Nat.le_max_left _ _
    have hright : b.imaxDepth ≤ Nat.max a.imaxDepth b.imaxDepth := Nat.le_max_right _ _
    constructor
    · simp only [summands, summandsWith]
      split
      · refine forall_mem_append.mpr ⟨fun s hs => ?_, fun s hs => ?_⟩
        · have := hbasesA s hs
          omega
        · have := hbases s hs
          omega
      · split
        · exact forall_mem_singleton.mpr (Nat.zero_le _)
        · have hfst := imaxDepth_ofSummands hbasesA
          refine forall_mem_singleton.mpr (Nat.succ_le_succ (Nat.max_le.mpr ⟨?_, ?_⟩)) <;> omega
    · intro d hd
      obtain ⟨d, rfl⟩ : ∃ e, d = e + 1 := ⟨d - 1, by omega⟩
      have hd := Nat.le_of_succ_le_succ hd
      simp only [summands, summandsWith, heqA d hd, heqB d hd, heq d hd]

lemma summands_eq_parts {depth : Nat} (h : l.imaxDepth ≤ depth) : summands depth l = l.parts :=
  (summands_depth _ l (Nat.le_refl _)).2 depth h

lemma imaxDepth_normalize (l : Level) : l.normalize.imaxDepth ≤ l.imaxDepth :=
  imaxDepth_ofSummands (summands_depth _ l (Nat.le_refl _)).1

@[simp] lemma parts_param (p : Name) : (param p).parts = [⟨.param p, 0⟩] := rfl

@[simp] lemma parts_mvar (id : Id) : (mvar id).parts = [⟨.mvar id, 0⟩] := rfl

@[simp] lemma parts_succ (l : Level) : l.succ.parts = l.parts.map (·.add 1) :=
  summands_succ l.imaxDepth l

@[simp] lemma parts_max (a b : Level) : (a.max b).parts = a.parts ++ b.parts := by
  have ha : a.imaxDepth ≤ (a.max b).imaxDepth := Nat.le_max_left _ _
  have hb : b.imaxDepth ≤ (a.max b).imaxDepth := Nat.le_max_right _ _
  rw [← summands_eq_parts ha, ← summands_eq_parts hb, parts, summands_max]

lemma parts_imax (a b : Level) : (a.imax b).parts =
    if b.normalize.isNeverZero then a.parts ++ b.normalize.parts
    else if b.normalize = .zero then [⟨.zero, 0⟩]
    else [⟨.imax a.normalize b.normalize, 0⟩] := by
  have ha : a.imaxDepth ≤ Nat.max a.imaxDepth b.imaxDepth := Nat.le_max_left _ _
  have hb : b.imaxDepth ≤ Nat.max a.imaxDepth b.imaxDepth := Nat.le_max_right _ _
  rw [← summands_eq_parts (Nat.le_trans (imaxDepth_normalize b) hb), normalize_eq, normalize_eq,
    ← summands_eq_parts ha, ← summands_eq_parts hb]
  rfl

lemma parts_ne_nil (l : Level) : l.parts ≠ [] := by
  have hne : ∀ depth l, summands depth l ≠ [] := by
    intro depth
    induction depth with
    | zero => exact summandsWith_ne_nil (by simp)
    | succ depth ih => exact summandsWith_ne_nil ih
  exact hne _ l

lemma subst_self (l : Level) : l.subst .param .mvar = l := by
  induction l with
  | succ l ih => rw [subst, ih]
  | max a b iha ihb | imax a b iha ihb => rw [subst, iha, ihb]
  | _ => rfl

/-- The summands of a level under a substitution come from what the level shows. -/
lemma parts_subst_eq_expand (f : Name → Level) (g : Id → Level) (l : Level) :
    (l.subst f g).parts = expand (fun b => (b.subst f g).parts) l.leaves := by
  induction l with
  | succ l ih => rw [subst, parts_succ, ih, leaves, expand_map_add]
  | max a b iha ihb => rw [subst, parts_max, iha, ihb, leaves, expand_append]
  | _ => exact (expand_singleton _ _).symm

lemma parts_eq_expand (l : Level) : l.parts = expand parts l.leaves := by
  have h := parts_subst_eq_expand .param .mvar l
  simpa only [subst_self] using h

/-- The level is its own only summand. -/
def OwnBase (b : Level) : Prop :=
  b.parts = [⟨b, 0⟩]

lemma expand_of_ownBase (h : ∀ s ∈ ss, s.base.OwnBase) : expand parts ss = ss := by
  induction ss with
  | nil => rfl
  | cons s ss ih =>
    obtain ⟨hs, hss⟩ := forall_mem_cons.mp h
    rw [expand, flatMap_cons, hs, ← expand, ih hss]
    simp [Summand.add]

lemma base_of_mem_leaves (hss : BasesIn ss) {t : Summand} (ht : t ∈ (ofSummands ss).leaves) :
    t.base = .zero ∨ ∃ s ∈ ss, s.base = t.base := by
  rw [ofSummands_eq] at ht
  by_cases hnil : written ss = []
  · rw [hnil] at ht
    obtain rfl := mem_singleton.mp ht
    exact .inl rfl
  · rw [leaves_maxOf (fun s hs => (hss.written s hs).1) hnil] at ht
    exact base_of_mem_written ht

/-- The summands of a normal form are those it shows. -/
lemma parts_ofSummands (hss : BasesIn ss) (hown : ∀ s ∈ ss, s.base.OwnBase) :
    (ofSummands ss).parts = (ofSummands ss).leaves := by
  rw [parts_eq_expand, expand_of_ownBase]
  intro t ht
  rcases base_of_mem_leaves hss ht with hbase | ⟨s, hs, hbase⟩
  · rw [hbase]
    rfl
  · exact hbase ▸ hown s hs

lemma normalize_ofSummands (hss : BasesIn ss) (hown : ∀ s ∈ ss, s.base.OwnBase) (hne : ss ≠ []) :
    (ofSummands ss).normalize = ofSummands ss := by
  rw [normalize_eq, parts_ofSummands hss hown]
  exact (equated_leaves hss hne).ofSummands_eq hss.leaves.plain hss.plain

/-- What is known of the summands of a level with plain metavariables: each base can stand in a normal
form, and is its own only summand. -/
lemma parts_spec (hl : l.Plain) : BasesIn l.parts ∧ (∀ s ∈ l.parts, s.base.OwnBase) := by
  induction l with
  | zero => exact ⟨forall_mem_singleton.mpr ⟨trivial, hl⟩, forall_mem_singleton.mpr rfl⟩
  | param p => exact ⟨forall_mem_singleton.mpr ⟨trivial, hl⟩, forall_mem_singleton.mpr rfl⟩
  | mvar id => exact ⟨forall_mem_singleton.mpr ⟨trivial, hl⟩, forall_mem_singleton.mpr rfl⟩
  | succ l ih =>
    obtain ⟨hbases, hown⟩ := ih hl
    rw [parts_succ]
    exact ⟨forall_mem_map.mpr hbases, forall_mem_map.mpr hown⟩
  | max a b iha ihb =>
    obtain ⟨ha, hb⟩ := plain_append hl
    obtain ⟨hbasesA, hownA⟩ := iha ha
    obtain ⟨hbasesB, hownB⟩ := ihb hb
    rw [parts_max]
    exact ⟨forall_mem_append.mpr ⟨hbasesA, hbasesB⟩, forall_mem_append.mpr ⟨hownA, hownB⟩⟩
  | imax a b iha ihb =>
    obtain ⟨ha, hb⟩ := plain_append hl
    obtain ⟨hbasesA, hownA⟩ := iha ha
    obtain ⟨hbasesB, hownB⟩ := ihb hb
    rw [parts_imax]
    split
    · rw [normalize_eq, parts_ofSummands hbasesB hownB]
      refine ⟨forall_mem_append.mpr ⟨hbasesA, hbasesB.leaves⟩, forall_mem_append.mpr ⟨hownA, fun t ht => ?_⟩⟩
      rcases base_of_mem_leaves hbasesB ht with hbase | ⟨s, hs, hbase⟩
      · rw [hbase]
        rfl
      · exact hbase ▸ hownB s hs
    · rename_i hpos
      split
      · exact ⟨forall_mem_singleton.mpr ⟨trivial, plain_zero⟩, forall_mem_singleton.mpr rfl⟩
      · rename_i hzero
        have hplain : (a.normalize.imax b.normalize).Plain :=
          forall_mem_append.mpr ⟨plain_ofSummands hbasesA.plain, plain_ofSummands hbasesB.plain⟩
        refine ⟨forall_mem_singleton.mpr ⟨Bool.eq_false_iff.mpr hpos, hplain⟩, forall_mem_singleton.mpr ?_⟩
        show (a.normalize.imax b.normalize).parts = _
        have hA : a.normalize.normalize = a.normalize := normalize_ofSummands hbasesA hownA a.parts_ne_nil
        have hB : b.normalize.normalize = b.normalize := normalize_ofSummands hbasesB hownB b.parts_ne_nil
        rw [parts_imax, hA, hB, if_neg hpos, if_neg hzero]

lemma basesIn_parts (hl : l.Plain) : BasesIn l.parts := (parts_spec hl).1

lemma normalize_normalize (hl : l.Plain) : l.normalize.normalize = l.normalize :=
  normalize_ofSummands (parts_spec hl).1 (parts_spec hl).2 l.parts_ne_nil

lemma equated_parts_normalize (hl : l.Plain) : Equated l.normalize.parts l.parts := by
  rw [normalize_eq, parts_ofSummands (parts_spec hl).1 (parts_spec hl).2]
  exact equated_leaves (basesIn_parts hl) l.parts_ne_nil

lemma normalize_eq_iff (ha : a.Plain) (hb : b.Plain) : a.normalize = b.normalize ↔ Equated a.parts b.parts :=
  ⟨equated_of_ofSummands_eq (basesIn_parts ha) (basesIn_parts hb) a.parts_ne_nil b.parts_ne_nil,
    fun h => h.ofSummands_eq (basesIn_parts ha).plain (basesIn_parts hb).plain⟩

/-! ## Substitution -/

lemma Plain.subst (hl : l.Plain) (hf : ∀ p, (f p).Plain) (hg : ∀ id, (g id).Plain) : (l.subst f g).Plain := by
  induction l with
  | zero => exact plain_zero
  | succ l ih => exact ih hl
  | max a b iha ihb | imax a b iha ihb =>
    obtain ⟨ha, hb⟩ := plain_append hl
    exact forall_mem_append.mpr ⟨iha ha, ihb hb⟩
  | param p => exact hf p
  | mvar id => exact hg id

/-- `imax` is a congruence of levels with the same normal form. -/
lemma Equated.imax {a' b' : Level} (ha : a.Plain) (ha' : a'.Plain) (hb : b.Plain) (hb' : b'.Plain)
    (hfst : Equated a.parts a'.parts) (hsnd : Equated b.parts b'.parts) :
    Equated (a.imax b).parts (a'.imax b').parts := by
  have hA : a.normalize = a'.normalize := (normalize_eq_iff ha ha').mpr hfst
  have hB : b.normalize = b'.normalize := (normalize_eq_iff hb hb').mpr hsnd
  rw [parts_imax, parts_imax, hA, hB]
  split
  · exact hfst.append (.refl _)
  · exact .refl _

/-- The summands of a level under a substitution come from its summands. -/
lemma equated_parts_subst (hl : l.Plain) (hf : ∀ p, (f p).Plain) (hg : ∀ id, (g id).Plain) :
    Equated (l.subst f g).parts (expand (fun b => (b.subst f g).parts) l.parts) := by
  have hexpand : ∀ {ss ts : List Summand}, Equated ss ts →
      Equated (expand (fun b => (b.subst f g).parts) ss) (expand (fun b => (b.subst f g).parts) ts) :=
    fun h => h.expand (fun b => parts_ne_nil _) rfl
  -- A normal form under the substitution has, up to order, the summands that its level has.
  have hnormal : ∀ {l : Level}, l.Plain → Equated (l.normalize.subst f g).parts
      (expand (fun b => (b.subst f g).parts) l.parts) := by
    intro l hl
    rw [parts_subst_eq_expand]
    exact hexpand (equated_leaves (basesIn_parts hl) l.parts_ne_nil)
  induction l with
  | zero => exact .refl _
  | param p =>
    rw [parts_param, expand_singleton]
    exact .refl _
  | mvar id =>
    rw [parts_mvar, expand_singleton]
    exact .refl _
  | succ l ih =>
    rw [subst, parts_succ, parts_succ, expand_map_add]
    exact (ih hl).map_add 1
  | max a b iha ihb =>
    obtain ⟨ha, hb⟩ := plain_append hl
    rw [subst, parts_max, parts_max, expand_append]
    exact (iha ha).append (ihb hb)
  | imax a b iha ihb =>
    obtain ⟨ha, hb⟩ := plain_append hl
    have iha := iha ha
    have ihb := ihb hb
    have haσ := ha.subst hf hg
    have hbσ := hb.subst hf hg
    rw [subst, parts_imax a b]
    split
    · rename_i hpos
      -- A positive offset in the second argument is still there.
      have hposσ : (b.subst f g).normalize.isNeverZero := by
        obtain ⟨s, hs, hoffset⟩ := (isNeverZero_ofSummands (basesIn_parts hb) b.parts_ne_nil).mp hpos
        obtain ⟨t, ht⟩ := exists_mem_of_ne_nil _ (parts_ne_nil (s.base.subst f g))
        refine (isNeverZero_ofSummands (basesIn_parts hbσ) (parts_ne_nil _)).mpr (ihb.1.exists_pos ?_)
        exact ⟨t.add s.offset, mem_expand.mpr ⟨s, hs, t, ht, rfl⟩, Nat.add_pos_right _ hoffset⟩
      rw [parts_imax, if_pos hposσ, expand_append]
      exact iha.append ((equated_parts_normalize hbσ).trans
        (ihb.trans (hexpand (equated_parts_normalize hb).symm)))
    · split
      · rename_i hzero
        have hzeroσ : (b.subst f g).normalize = .zero := by
          have hparts := (normalize_eq_iff hb plain_zero).mp hzero
          exact (normalize_eq_iff hbσ plain_zero).mpr (ihb.trans (hexpand hparts))
        rw [parts_imax, hzeroσ]
        exact .refl _
      · rw [expand_singleton]
        exact .imax haσ ((plain_ofSummands (basesIn_parts ha).plain).subst hf hg) hbσ
          ((plain_ofSummands (basesIn_parts hb).plain).subst hf hg) (iha.trans (hnormal ha).symm)
          (ihb.trans (hnormal hb).symm)

/-- Levels with the same normal form keep it under a substitution. -/
lemma normalize_subst_congr (ha : a.Plain) (hb : b.Plain) (hf : ∀ p, (f p).Plain) (hg : ∀ id, (g id).Plain)
    (h : a.normalize = b.normalize) : (a.subst f g).normalize = (b.subst f g).normalize := by
  have hparts := (normalize_eq_iff ha hb).mp h
  refine (normalize_eq_iff (ha.subst hf hg) (hb.subst hf hg)).mpr ?_
  calc Equated (a.subst f g).parts _ := equated_parts_subst ha hf hg
    Equated _ _ := hparts.expand (fun b => parts_ne_nil _) rfl
    Equated _ (b.subst f g).parts := (equated_parts_subst hb hf hg).symm

lemma isEquiv_subst (ha : a.Plain) (hb : b.Plain) (hf : ∀ p, (f p).Plain) (hg : ∀ id, (g id).Plain)
    (h : a.isEquiv b) : (a.subst f g).isEquiv (b.subst f g) := by
  simp only [isEquiv, Bool.or_eq_true, beq_iff_eq] at h ⊢
  rcases h with rfl | h
  · exact .inl rfl
  · exact .inr (normalize_subst_congr ha hb hf hg h)

end Level

end ProofAssistant
