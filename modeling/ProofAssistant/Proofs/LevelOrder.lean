import ProofAssistant.Proofs.LevelNormalForm

/-!
# The order of levels

Levels pass for equal if each of the two maxima of summands covers the other (`Level.isEquiv_iff`), and for ordered
if the second one covers the first (`Level.isLeq_iff`). So equality is a congruence that is stable under substitution,
and maxima are least upper bounds (`Level.isEquiv_congruence`).

A metavariable is known by its number, but carries a name too. Levels that occur together take these from one table
(`Level.Hinted`), and normal forms do not look at them.
-/

namespace ProofAssistant

open List

variable {l : Level} {f : Name → Level} {g : Id → Level}

namespace Level

variable {hint : Nat → Option Name}

/-! ## The names of metavariables -/

/-- The names that metavariables remember are those of a table. -/
def Hinted (hint : Nat → Option Name) (l : Level) : Prop :=
  ∀ id ∈ l.mvars, id.hint = hint id.number

lemma Hinted.append {a b : Level} (h : ∀ id ∈ a.mvars ++ b.mvars, id.hint = hint id.number) :
    a.Hinted hint ∧ b.Hinted hint :=
  forall_mem_append.mp h

lemma Hinted.of_hasMVar (h : l.hasMVar = false) : l.Hinted hint := by
  induction l with
  | zero | param p => simp [Hinted, mvars]
  | succ l ih => exact ih h
  | max a b iha ihb | imax a b iha ihb =>
    obtain ⟨ha, hb⟩ := Bool.or_eq_false_iff.mp h
    exact forall_mem_append.mpr ⟨iha ha, ihb hb⟩
  | mvar id => simp [hasMVar] at h

lemma Hinted.subst (hl : l.Hinted hint)
    (hf : ∀ p, (f p).Hinted hint) (hg : ∀ id, id.hint = hint id.number → (g id).Hinted hint) :
    (l.subst f g).Hinted hint := by
  induction l with
  | zero => exact hl
  | succ l ih => exact ih hl
  | max a b iha ihb | imax a b iha ihb =>
    obtain ⟨ha, hb⟩ := Hinted.append hl
    exact forall_mem_append.mpr ⟨iha ha, ihb hb⟩
  | param p => exact hf p
  | mvar id => exact hg id (hl id (mem_singleton_self id))

/-- Gives each metavariable the name of a table. -/
def remember (hint : Nat → Option Name) (l : Level) : Level :=
  l.subst .param fun id => .mvar ⟨id.number, hint id.number⟩

/-- Leaves out the names of metavariables. -/
def forget (l : Level) : Level :=
  l.remember fun _ => none

section Recall

variable {hint : Nat → Option Name}
variable {l : Level}

lemma hinted_remember (l : Level) : (l.remember hint).Hinted hint := by
  induction l with
  | zero | param p => simp [Hinted, remember, subst, mvars]
  | succ l ih => exact ih
  | max a b iha ihb | imax a b iha ihb => exact forall_mem_append.mpr ⟨iha, ihb⟩
  | mvar id => exact forall_mem_singleton.mpr rfl

lemma plain_forget (l : Level) : l.forget.Plain :=
  hinted_remember l

lemma Hinted.remember_eq (hl : l.Hinted hint) : l.remember hint = l := by
  unfold remember
  induction l with
  | zero | param p => rfl
  | succ l ih => rw [Level.subst, ih hl]
  | max a b iha ihb | imax a b iha ihb =>
    obtain ⟨ha, hb⟩ := Hinted.append hl
    rw [Level.subst, iha ha, ihb hb]
  | mvar id =>
    have hid : id.hint = hint id.number := hl id (mem_singleton_self id)
    rw [Level.subst, ← hid]

lemma remember_remember (hint' : Nat → Option Name) (l : Level) :
    (l.remember hint').remember hint = l.remember hint := by
  unfold remember
  induction l with
  | succ l ih => rw [subst, subst, subst, ih]
  | max a b iha ihb | imax a b iha ihb => rw [subst, subst, subst, iha, ihb]
  | _ => rfl

lemma value_remember (v : Valuation) (l : Level) : (l.remember hint).value v = l.value v :=
  value_subst v _ _ v l (fun _ => rfl) (fun _ => rfl)

lemma imaxDepth_remember (l : Level) : (l.remember hint).imaxDepth = l.imaxDepth := by
  unfold remember
  induction l with
  | succ l ih => exact ih
  | max a b iha ihb | imax a b iha ihb => rw [subst, imaxDepth, imaxDepth, iha, ihb]
  | _ => rfl

/-! ### Normal forms do not look at the names -/

lemma isNeverZero_remember (l : Level) : (l.remember hint).isNeverZero = l.isNeverZero := by
  unfold remember
  induction l with
  | max a b iha ihb => rw [subst, isNeverZero, isNeverZero, iha, ihb]
  | imax a b _ ihb => exact ihb
  | _ => rfl

lemma remember_eq_zero_iff (l : Level) : l.remember hint = .zero ↔ l = .zero := by
  cases l <;> simp [remember, subst]

lemma rank_remember (l : Level) : (l.remember hint).rank = l.rank := by
  cases l <;> rfl

lemma compare_remember (a b : Level) : (a.remember hint).compare (b.remember hint) = a.compare b := by
  fun_induction Level.compare a b with
  | case1 a b ih => exact ih
  | case2 a₁ b₁ a₂ b₂ ih₁ ih₂ | case3 a₁ b₁ a₂ b₂ ih₁ ih₂ =>
    rw [← ih₁, ← ih₂]
    rfl
  | case4 p q => rfl
  | case5 i j => rfl
  | case6 a b h₁ h₂ h₃ h₄ h₅ =>
    by_cases hrank : a.rank = b.rank
    · -- Levels of equal rank have the same constructor, and only zero was not compared before.
      cases a <;> cases b <;> simp [rank] at hrank
      · rfl
      · exact absurd rfl (h₁ _ _ rfl)
      · exact absurd rfl (h₂ _ _ _ _ rfl)
      · exact absurd rfl (h₃ _ _ _ _ rfl)
      · exact absurd rfl (h₄ _ _ rfl)
      · exact absurd rfl (h₅ _ _ rfl)
    · have hne : (a.remember hint).rank ≠ (b.remember hint).rank := by rwa [rank_remember, rank_remember]
      rw [compare_of_rank_ne hne, rank_remember, rank_remember]

/-- Gives each metavariable of the base the name of a table. -/
def Summand.remember (hint : Nat → Option Name) (s : Summand) : Summand :=
  ⟨s.base.remember hint, s.offset⟩

lemma map_remember_insert (s : Summand) (ss : List Summand) :
    (Summand.insert s ss).map (.remember hint) = Summand.insert (s.remember hint) (ss.map (.remember hint)) := by
  induction ss with
  | nil => rfl
  | cons t ts ih =>
    have hcmp : compare (s.remember hint).base (t.remember hint).base = compare s.base t.base :=
      compare_remember s.base t.base
    rw [map_cons, Summand.insert, Summand.insert, hcmp]
    split
    · rfl
    · rfl
    · rw [map_cons, ih]

lemma atomsOf_map_remember (ss : List Summand) :
    atomsOf (ss.map (.remember hint)) = (atomsOf ss).map (.remember hint) := by
  suffices ∀ atoms : List Summand,
      (ss.map (Summand.remember hint)).foldl
        (fun atoms s => if s.base = .zero then atoms else Summand.insert s atoms) (atoms.map (.remember hint)) =
      (ss.foldl (fun atoms s => if s.base = .zero then atoms else Summand.insert s atoms) atoms).map
        (.remember hint) from this []
  induction ss with
  | nil => exact fun _ => rfl
  | cons s ss ih =>
    intro atoms
    have hzero : (s.remember hint).base = .zero ↔ s.base = .zero := remember_eq_zero_iff s.base
    rw [map_cons, foldl_cons, foldl_cons]
    by_cases hs : s.base = .zero
    · rw [if_pos (hzero.mpr hs), if_pos hs, ih]
    · rw [if_neg (mt hzero.mp hs), if_neg hs, ← map_remember_insert, ih]

lemma constantOf_map_remember (ss : List Summand) : constantOf (ss.map (.remember hint)) = constantOf ss := by
  simp only [constantOf, foldl_map, Summand.remember, remember_eq_zero_iff]

lemma remember_toLevel (s : Summand) : s.toLevel.remember hint = (s.remember hint).toLevel := by
  obtain ⟨b, k⟩ := s
  induction k with
  | zero => rfl
  | succ k ih => exact congrArg succ ih

lemma remember_foldl_max (l : Level) (ls : List Level) :
    (ls.foldl .max l).remember hint = (ls.map (remember hint)).foldl .max (l.remember hint) := by
  induction ls generalizing l with
  | nil => rfl
  | cons l' ls ih => exact ih (l.max l')

lemma ofSummands_map_remember (ss : List Summand) :
    ofSummands (ss.map (.remember hint)) = (ofSummands ss).remember hint := by
  have hwritten : written (ss.map (.remember hint)) = (written ss).map (.remember hint) := by
    have hall : ((atomsOf ss).map (Summand.remember hint)).all (·.offset < constantOf ss) =
        (atomsOf ss).all (·.offset < constantOf ss) := all_map
    unfold written
    rw [atomsOf_map_remember, constantOf_map_remember, hall]
    split <;> rfl
  have hlevels : (written ss).map (Summand.toLevel ∘ .remember hint) =
      (written ss).map (remember hint ∘ Summand.toLevel) :=
    map_congr_left fun s _ => (remember_toLevel s).symm
  rw [ofSummands_eq, ofSummands_eq, hwritten, map_map, hlevels, ← map_map]
  cases (written ss).map Summand.toLevel with
  | nil => rfl
  | cons l ls => exact (remember_foldl_max l ls).symm

lemma summandsWith_remember {inner : Level → List Summand}
    (hinner : ∀ l, inner (l.remember hint) = (inner l).map (.remember hint)) (l : Level) :
    summandsWith inner (l.remember hint) = (summandsWith inner l).map (.remember hint) := by
  induction l with
  | succ l ih =>
    show (summandsWith inner (l.remember hint)).map Summand.succ = _
    rw [ih, summandsWith, map_map, map_map]
    rfl
  | max a b iha ihb =>
    show summandsWith inner (a.remember hint) ++ summandsWith inner (b.remember hint) = _
    rw [iha, ihb, summandsWith, map_append]
  | imax a b _ _ =>
    show summandsWith inner (.imax (a.remember hint) (b.remember hint)) = _
    simp only [summandsWith, hinner, ofSummands_map_remember, isNeverZero_remember, remember_eq_zero_iff]
    split
    · rw [map_append]
    · split <;> rfl
  | _ => rfl

lemma summands_remember (depth : Nat) (l : Level) :
    summands depth (l.remember hint) = (summands depth l).map (.remember hint) := by
  induction depth generalizing l with
  | zero => exact summandsWith_remember (fun _ => rfl) l
  | succ depth ih => exact summandsWith_remember ih l

/-- The names of metavariables pass through normal forms. -/
lemma normalize_remember (l : Level) : (l.remember hint).normalize = l.normalize.remember hint := by
  rw [normalize, imaxDepth_remember, summands_remember, ofSummands_map_remember, normalize]

lemma Hinted.normalize_normalize (hl : l.Hinted hint) : l.normalize.normalize = l.normalize := by
  -- Leave out the names, where normal forms are known to be normal, and put them back.
  have h : (l.forget.normalize.normalize).remember hint = l.forget.normalize.remember hint := by
    rw [Level.normalize_normalize (plain_forget l)]
  rw [← normalize_remember, ← normalize_remember, forget, remember_remember, hl.remember_eq] at h
  exact h

lemma Hinted.normalize (hl : l.Hinted hint) : l.normalize.Hinted hint := by
  rw [← hl.remember_eq, normalize_remember]
  exact hinted_remember _

end Recall

/-! ## Equality and order by summands -/

lemma isEquiv_iff_normalize {a b : Level} : a.isEquiv b ↔ a.normalize = b.normalize := by
  rw [isEquiv, Bool.or_eq_true, beq_iff_eq, beq_iff_eq]
  exact ⟨fun h => h.elim (congrArg Level.normalize) id, .inr⟩

section Order

variable {hint : Nat → Option Name} {a b c a' b' : Level}
variable (ha : a.Hinted hint) (hb : b.Hinted hint) (hc : c.Hinted hint)
variable (ha' : a'.Hinted hint) (hb' : b'.Hinted hint)

include ha hb

/-- Levels with names from one table have the same normal form if they have it without names. -/
lemma normalize_forget_eq_iff : a.forget.normalize = b.forget.normalize ↔ a.normalize = b.normalize := by
  unfold forget
  rw [normalize_remember, normalize_remember]
  refine ⟨fun h => ?_, congrArg _⟩
  have h := congrArg (remember hint) h
  rwa [remember_remember, remember_remember, ha.normalize.remember_eq, hb.normalize.remember_eq] at h

/-- Levels pass for equal if each of their maxima covers the other. -/
lemma isEquiv_iff : a.isEquiv b ↔ Equated a.forget.parts b.forget.parts := by
  rw [isEquiv_iff_normalize, ← normalize_forget_eq_iff ha hb, normalize_eq_iff (plain_forget a) (plain_forget b)]

/-- A level passes for a lower bound of another one if that one covers it. -/
lemma isLeq_iff : a.isLeq b ↔ Covers b.forget.parts a.forget.parts := by
  have hparts : (a.max b).forget.parts = a.forget.parts ++ b.forget.parts := parts_max _ _
  rw [isLeq, isEquiv_iff (a := a.max b) (forall_mem_append.mpr ⟨ha, hb⟩) hb, hparts]
  constructor
  · intro h
    exact h.2.trans (.of_subset (subset_append_left _ _))
  · intro h
    refine ⟨.of_subset (subset_append_right _ _), fun t ht => ?_⟩
    rcases mem_append.mp ht with ht | ht
    · exact h t ht
    · exact ⟨t, ht, .refl t⟩

/-! ### The order -/

omit ha hb

include ha in
lemma isLeq_refl : a.isLeq a :=
  (isLeq_iff ha ha).mpr (.refl _)

include ha hb hc in
lemma isLeq_trans (h : a.isLeq b) (h' : b.isLeq c) : a.isLeq c := by
  rw [isLeq_iff ha hb] at h
  rw [isLeq_iff hb hc] at h'
  exact (isLeq_iff ha hc).mpr (h'.trans h)

include ha hb in
lemma isEquiv_of_isLeq (h : a.isLeq b) (h' : b.isLeq a) : a.isEquiv b := by
  rw [isLeq_iff ha hb] at h
  rw [isLeq_iff hb ha] at h'
  exact (isEquiv_iff ha hb).mpr ⟨h', h⟩

include ha hb hc in
/-- A maximum is below what both of its parts are below, and only below that. -/
lemma isLeq_max_iff : (a.max b).isLeq c ↔ a.isLeq c ∧ b.isLeq c := by
  have hparts : (a.max b).forget.parts = a.forget.parts ++ b.forget.parts := parts_max _ _
  have hmax : (a.max b).Hinted hint := forall_mem_append.mpr ⟨ha, hb⟩
  rw [isLeq_iff hmax hc, isLeq_iff ha hc, isLeq_iff hb hc, hparts]
  exact forall_mem_append

include ha hb

/-! ### Congruence -/

lemma isEquiv_succ (h : a.isEquiv b) : a.succ.isEquiv b.succ := by
  rw [isEquiv_iff ha hb] at h
  rw [isEquiv_iff (a := a.succ) (b := b.succ) ha hb]
  show Equated a.forget.succ.parts b.forget.succ.parts
  rw [parts_succ, parts_succ]
  exact h.map_add 1

include ha' hb'

lemma isEquiv_max (h : a.isEquiv b) (h' : a'.isEquiv b') : (a.max a').isEquiv (b.max b') := by
  rw [isEquiv_iff ha hb] at h
  rw [isEquiv_iff ha' hb'] at h'
  rw [isEquiv_iff (a := a.max a') (b := b.max b') (forall_mem_append.mpr ⟨ha, ha'⟩)
    (forall_mem_append.mpr ⟨hb, hb'⟩)]
  show Equated (a.forget.max a'.forget).parts (b.forget.max b'.forget).parts
  rw [parts_max, parts_max]
  exact h.append h'

lemma isEquiv_imax (h : a.isEquiv b) (h' : a'.isEquiv b') : (a.imax a').isEquiv (b.imax b') := by
  rw [isEquiv_iff ha hb] at h
  rw [isEquiv_iff ha' hb'] at h'
  rw [isEquiv_iff (a := a.imax a') (b := b.imax b') (forall_mem_append.mpr ⟨ha, ha'⟩)
    (forall_mem_append.mpr ⟨hb, hb'⟩)]
  exact .imax (plain_forget a) (plain_forget b) (plain_forget a') (plain_forget b') h h'

omit ha' hb' hb

lemma forget_subst (f : Name → Level) (g : Id → Level) : (a.subst f g).forget =
      a.forget.subst (fun p => (f p).forget) fun id => (g ⟨id.number, hint id.number⟩).forget := by
  unfold forget remember
  induction a with
  | zero | param p => rfl
  | succ l ih => rw [subst, subst, subst, subst, ih ha]
  | max l r ihl ihr | imax l r ihl ihr =>
    obtain ⟨hl, hr⟩ := Hinted.append ha
    rw [subst, subst, subst, subst, ihl hl, ihr hr]
  | mvar id =>
    have hid : id.hint = hint id.number := ha id (mem_singleton_self id)
    rw [subst, subst, subst, ← hid]

include hb

/-- Levels that pass for equal do so under a substitution with names from the table. -/
lemma isEquiv_subst_of_hinted (hf : ∀ p, (f p).Hinted hint)
    (hg : ∀ id, id.hint = hint id.number → (g id).Hinted hint) (h : a.isEquiv b) :
    (a.subst f g).isEquiv (b.subst f g) := by
  rw [isEquiv_iff_normalize, ← normalize_forget_eq_iff ha hb] at h
  rw [isEquiv_iff_normalize, ← normalize_forget_eq_iff (ha.subst hf hg) (hb.subst hf hg), forget_subst ha,
    forget_subst hb]
  exact normalize_subst_congr (plain_forget a) (plain_forget b) (fun _ => plain_forget _) (fun _ => plain_forget _) h

lemma isEquiv_instantiateParams (params : List Name) {args : List Level} (hargs : ∀ l ∈ args, l.Hinted hint)
    (h : a.isEquiv b) : (a.instantiateParams params args).isEquiv (b.instantiateParams params args) := by
  refine isEquiv_subst_of_hinted ha hb (fun p => ?_) (fun id hid => forall_mem_singleton.mpr hid) h
  -- The argument of a parameter is one of the list, or the parameter itself.
  unfold lookupParam
  cases hlookup : (params.zip args).lookup p with
  | none => exact Hinted.of_hasMVar rfl
  | some l =>
    obtain ⟨l₁, l₂, hzip, -⟩ := lookup_eq_some_iff.mp hlookup
    have hmem : (p, l) ∈ params.zip args := by simp [hzip]
    exact hargs l (of_mem_zip hmem).2

end Order

/-- Equality of levels is a congruence that substitution keeps. The order is one up to it, and maxima are least upper
bounds. -/
theorem isEquiv_congruence {hint : Nat → Option Name} {a b c a' b' : Level} (ha : a.Hinted hint)
    (hb : b.Hinted hint) (hc : c.Hinted hint) (ha' : a'.Hinted hint) (hb' : b'.Hinted hint) :
    a.normalize.normalize = a.normalize ∧
      (a.isEquiv a ∧ (a.isEquiv b → b.isEquiv a) ∧ (a.isEquiv b → b.isEquiv c → a.isEquiv c)) ∧
      (a.isEquiv a' → b.isEquiv b' →
        a.succ.isEquiv a'.succ ∧ (a.max b).isEquiv (a'.max b') ∧ (a.imax b).isEquiv (a'.imax b')) ∧
      (a.isLeq a ∧ (a.isLeq b → b.isLeq c → a.isLeq c) ∧ (a.isLeq b → b.isLeq a → a.isEquiv b)) ∧
      (a.isLeq (a.max b) ∧ b.isLeq (a.max b) ∧ (a.isLeq c → b.isLeq c → (a.max b).isLeq c)) ∧
      (a.isEquiv b →
        (∀ params args, (∀ l ∈ args, l.Hinted hint) →
          (a.instantiateParams params args).isEquiv (b.instantiateParams params args)) ∧
        ∀ σ : Id → Level, (∀ id, id.hint = hint id.number → (σ id).Hinted hint) →
          (a.subst .param σ).isEquiv (b.subst .param σ)) := by
  have hmax : (a.max b).Hinted hint := List.forall_mem_append.mpr ⟨ha, hb⟩
  obtain ⟨hleft, hright⟩ := (isLeq_max_iff ha hb hmax).mp (isLeq_refl hmax)
  refine ⟨ha.normalize_normalize, ⟨?_, ?_, ?_⟩, ?_, ⟨isLeq_refl ha, isLeq_trans ha hb hc, isEquiv_of_isLeq ha hb⟩,
    ⟨hleft, hright, fun h h' => (isLeq_max_iff ha hb hc).mpr ⟨h, h'⟩⟩, ?_⟩
  · exact isEquiv_iff_normalize.mpr rfl
  · exact fun h => isEquiv_iff_normalize.mpr (isEquiv_iff_normalize.mp h).symm
  · exact fun h h' => isEquiv_iff_normalize.mpr ((isEquiv_iff_normalize.mp h).trans (isEquiv_iff_normalize.mp h'))
  · intro h h'
    exact ⟨isEquiv_succ ha ha' h, isEquiv_max ha ha' hb hb' h h', isEquiv_imax ha ha' hb hb' h h'⟩
  · intro h
    refine ⟨fun params args hargs => isEquiv_instantiateParams ha hb params hargs h, fun σ hσ => ?_⟩
    exact isEquiv_subst_of_hinted ha hb (fun p => Hinted.of_hasMVar rfl) hσ h

/-- `imax v (u + 1)` passes for `max (u + 1) v`, hence it does so with `imax u v` for the metavariable `u`. -/
theorem isEquiv_imax_put :
    let u : Id := ⟨7, some ⟨"u"⟩⟩
    let a : Level := .imax (.param ⟨"v"⟩) (.succ (.mvar u))
    let b : Level := .max (.succ (.mvar u)) (.param ⟨"v"⟩)
    let σ : Id → Level := fun _ => .imax (.mvar u) (.param ⟨"v"⟩)
    a.Hinted (fun _ => u.hint) ∧ b.Hinted (fun _ => u.hint) ∧ a.isEquiv b ∧
      (a.subst .param σ).isEquiv (b.subst .param σ) := by
  intro u a b σ
  have ha : a.Hinted fun _ => u.hint := by simp [a, Hinted, mvars]
  have hb : b.Hinted fun _ => u.hint := by simp [b, Hinted, mvars]
  have hσ : ∀ id, id.hint = u.hint → (σ id).Hinted fun _ => u.hint := by simp [σ, Hinted, mvars]
  have hab : a.isEquiv b := by decide
  obtain ⟨-, -, -, -, -, hsubst⟩ := isEquiv_congruence ha hb hb ha hb
  exact ⟨ha, hb, hab, (hsubst hab).2 σ hσ⟩

end Level

end ProofAssistant
