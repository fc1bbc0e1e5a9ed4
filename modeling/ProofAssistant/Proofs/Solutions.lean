import Mathlib.Data.Finset.Card
import ProofAssistant.Proofs.Alphabet
import ProofAssistant.Proofs.Relabelling
import ProofAssistant.Proofs.Settling

/-!
# Solutions of holes and universe metavariables

Solutions are put in repeatedly, as deep as there are solutions. If none of them leads back to what it solves, this is
deep enough (`Metas.instantiate_hole`, `Metas.instantiateLevel_mvar`).

Putting solutions in contracts them with the arguments they meet. Up to conversion it is settling, which contracts
nothing (`Env.conv_instantiate`), so solutions may be put in before more of them are known.
-/

namespace ProofAssistant

open List Level Metas

variable {P : Id → Prop} {depth : Nat} {l : Level} {m : Term}
variable {α : Type} {μ : Metas} {v m' : Term} {rank : Id → Nat} {Q : Id → Prop} {L : Level → Prop} {h : Id} {k : Nat}

open InductiveSpec

/-- Where nothing leads back to itself, every step lowers a rank, which is at most the number of steps there are. -/
lemma exists_rank {leads : Id → Id → Prop} (hacyclic : ∀ h, ¬ Relation.TransGen leads h h) {keys : List Id}
    (hkeys : ∀ h h', leads h h' → h ∈ keys) :
    ∃ rank : Id → Nat, (∀ h, rank h ≤ keys.length) ∧ (∀ h ∈ keys, 0 < rank h) ∧
      ∀ h h', leads h h' → rank h' < rank h := by
  classical
  let reach (h : Id) : Finset Id := keys.toFinset.filter (Relation.ReflTransGen leads h)
  have hself : ∀ h ∈ keys, h ∈ reach h := fun h hh => by simp [reach, hh, Relation.ReflTransGen.refl]
  refine ⟨fun h => (reach h).card, fun h => ?_, fun h hh => ?_, fun h h' hstep => ?_⟩
  · exact (Finset.card_le_card (Finset.filter_subset _ _)).trans keys.toFinset_card_le
  · exact Finset.card_pos.mpr ⟨h, hself h hh⟩
  · refine Finset.card_lt_card ((Finset.ssubset_iff_of_subset fun k hk => ?_).mpr
      ⟨h, hself h (hkeys h h' hstep), fun hback => ?_⟩)
    · obtain ⟨hk, hreach⟩ := Finset.mem_filter.mp hk
      exact Finset.mem_filter.mpr ⟨hk, .head hstep hreach⟩
    · exact hacyclic h (.head' hstep (Finset.mem_filter.mp hback).2)

lemma lookup_cons_eq_ite (x : Id) (a : α) (ps : List (Id × α)) (y : Id) :
    ((x, a) :: ps).lookup y = if y = x then some a else ps.lookup y := by
  rw [lookup_cons]
  by_cases h : y = x
  · simp [h]
  · rw [beq_eq_false_iff_ne.mpr h, if_neg h]

lemma mem_keys_of_lookup {ps : List (Id × α)} {x : Id} {a : α} (h : ps.lookup x = some a) : x ∈ ps.map Prod.fst :=
  mem_map_of_mem (mem_of_lookup_eq_some h)

/-! ## Holes in terms -/

namespace Term

variable {S : Scope} {k : Nat} {m : Term} {value : Id → Option Term}

section

variable {value : Id → Option Term} {h : Id}

lemma fillHolesApp_some (hv : value h = some v) (d : Bool) (args : List Term) :
    (hole h d).fillHolesApp value args = v.beta args := by
  simp [fillHolesApp_eq, hv]

lemma fillHolesApp_none (hv : value h = none) (d : Bool) (args : List Term) :
    (hole h d).fillHolesApp value args = (hole h d).apply args := by
  simp [fillHolesApp_eq, hv]

end

lemma In.holes (hm : m.In S k) (hP : ∀ h, m.containsHole h → P h) : m.In { S with hole := P } k := by
  have hall : Leafwise fun _ m => ∀ h, m.containsHole h → P h := .forall fun h => leafwise_containsHole h (P h)
  refine ((leafwise_in S).and hall).imp (leafwise_in _) (fun k m hl h => ?_) ⟨hm, hP⟩
  cases m <;> simp_all [IsLeaf, In, containsHole, hasHole]

lemma fillHolesApp_congr {value' : Id → Option Term} (hm : m.In S k) (h : ∀ h, S.hole h → value h = value' h)
    (args : List Term) : m.fillHolesApp value args = m.fillHolesApp value' args := by
  induction m generalizing k args with
  | hole h' d => rw [fillHolesApp_eq, fillHolesApp_eq]; simp only [h h' hm]
  | app f a ihf iha => rw [fillHolesApp_eq, fillHolesApp_eq]; simp only [ihf hm.1, iha hm.2]
  | lam x t b iht ihb | pi x _ t b iht ihb =>
    rw [fillHolesApp_eq, fillHolesApp_eq]; simp only [iht hm.1, ihb hm.2]
  | _ => rw [fillHolesApp_eq, fillHolesApp_eq]

lemma fillHolesApp_eq_apply (hm : m.In S k) (h : ∀ h, S.hole h → value h = none) (args : List Term) :
    m.fillHolesApp value args = m.apply args := by
  induction m generalizing k args with
  | hole h' d => exact fillHolesApp_none (h h' hm) d args
  | app f a ihf iha => rw [fillHolesApp_eq]; simp [ihf hm.1, iha hm.2]
  | lam x t b iht ihb | pi x _ t b iht ihb => rw [fillHolesApp_eq]; simp [iht hm.1, ihb hm.2]
  | _ => rw [fillHolesApp_eq]

/-- Holes whose ranks are at most `depth` are resolved at this depth, if the holes of a value have lower ranks than
the hole it is for. -/
lemma resolveHoles_succ (hvalue : ∀ h v, value h = some v → 0 < rank h ∧ ∀ h', v.containsHole h' → rank h' < rank h)
    (hm : ∀ h, m.containsHole h → rank h ≤ depth) : m.resolveHoles value (depth + 1) = m.resolveHoles value depth := by
  induction depth generalizing m with
  | zero =>
    refine fillHolesApp_eq_apply ((in_looseBound (Nat.le_refl _)).holes hm) (fun h hh => ?_) []
    cases hv : value h with
    | none => rfl
    | some v =>
      have hpos := (hvalue h v hv).1
      omega
  | succ depth ih =>
    refine fillHolesApp_congr ((in_looseBound (Nat.le_refl _)).holes hm) (fun h hh => ?_) []
    cases hv : value h with
    | none => rfl
    | some v =>
      have hdepth : ∀ h', v.containsHole h' → rank h' ≤ depth := by
        intro h' hh'
        have hlow := (hvalue h v hv).2 h' hh'
        omega
      simp only [Option.map_some, ih hdepth]

lemma In.fillHolesApp (hvalue : ∀ h v, value h = some v → v.In S 0) (hm : m.In S k) {args : List Term}
    (hargs : ∀ a ∈ args, a.In S k) : (m.fillHolesApp value args).In S k := by
  induction m generalizing k args with
  | hole h d =>
    cases hv : value h with
    | none =>
      rw [fillHolesApp_none hv]
      exact in_apply.mpr ⟨hm, hargs⟩
    | some v =>
      rw [fillHolesApp_some hv]
      exact ((hvalue h v hv).le (Nat.zero_le k)).beta hargs
  | app f a ihf iha =>
    rw [fillHolesApp_eq]
    exact ihf hm.1 (forall_mem_cons.mpr ⟨iha hm.2 (forall_mem_nil _), hargs⟩)
  | lam x t b iht ihb | pi x _ t b iht ihb =>
    rw [fillHolesApp_eq]
    exact in_apply.mpr ⟨⟨iht hm.1 (forall_mem_nil _), ihb hm.2 (forall_mem_nil _)⟩, hargs⟩
  | _ =>
    exact in_apply.mpr ⟨hm, hargs⟩

lemma In.resolveHoles (hvalue : ∀ h v, value h = some v → v.In S 0) (hm : m.In S k) :
    (m.resolveHoles value depth).In S k := by
  induction depth generalizing m k with
  | zero => exact hm
  | succ depth ih =>
    refine hm.fillHolesApp (fun h v hv => ?_) (forall_mem_nil _)
    obtain ⟨w, hw, rfl⟩ := Option.map_eq_some_iff.mp hv
    exact ih (hvalue h w hw)

/-! ### Levels -/

lemma mapLevels_beta (f : Level → Level) (m : Term) (args : List Term) :
    (m.beta args).mapLevels f = (m.mapLevels f).beta (args.map (·.mapLevels f)) := by
  simpa only [relabel_id_left] using relabel_beta id f m args

lemma mapLevels_fillHolesApp (f : Level → Level) (value : Id → Option Term) (m : Term) (args : List Term) :
    (m.fillHolesApp value args).mapLevels f =
      (m.mapLevels f).fillHolesApp (fun h => (value h).map (·.mapLevels f)) (args.map (·.mapLevels f)) := by
  induction m generalizing args with
  | hole h d =>
    cases hv : value h with
    | none =>
      rw [fillHolesApp_none hv, mapLevels_apply]
      exact (fillHolesApp_none (by simp [hv]) d _).symm
    | some v =>
      rw [fillHolesApp_some hv, mapLevels_beta]
      exact (fillHolesApp_some (by simp [hv]) d _).symm
  | app g a ihg iha =>
    rw [fillHolesApp_eq, fillHolesApp_eq _ (mapLevels f (.app g a))]
    simp only [mapLevels, ihg, iha, map_cons, map_nil]
  | lam x t b iht ihb | pi x _ t b iht ihb =>
    rw [fillHolesApp_eq, fillHolesApp_eq _ (mapLevels f _)]
    simp only [mapLevels_apply, mapLevels, iht, ihb, map_nil]
  | _ =>
    exact mapLevels_apply f _ _

end Term

/-! ## Levels with metavariables -/

namespace Level

lemma subst_congr {f : Name → Level} {g g' : Id → Level} (h : ∀ u ∈ l.mvars, g u = g' u) :
    l.subst f g = l.subst f g' := by
  induction l with
  | succ l ih => rw [subst, subst, ih h]
  | max a b iha ihb | imax a b iha ihb =>
    rw [subst, subst, iha fun u hu => h u (mem_append_left _ hu), ihb fun u hu => h u (mem_append_right _ hu)]
  | mvar u => exact h u (mem_singleton_self u)
  | _ => rfl

lemma exists_of_mem_mvars {g : Id → Level} {u : Id} (hu : u ∈ (l.subst .param g).mvars) :
    ∃ w ∈ l.mvars, u ∈ (g w).mvars := by
  induction l with
  | succ l ih => exact ih hu
  | max a b iha ihb | imax a b iha ihb =>
    rcases mem_append.mp hu with hu | hu
    · obtain ⟨w, hw, hu⟩ := iha hu
      exact ⟨w, mem_append_left _ hw, hu⟩
    · obtain ⟨w, hw, hu⟩ := ihb hu
      exact ⟨w, mem_append_right _ hw, hu⟩
  | mvar w => exact ⟨w, mem_singleton_self w, hu⟩
  | _ => exact nomatch hu

end Level

namespace Metas

variable {μ' : Metas} {u : Id} {l : Level}

/-- The solution of the metavariable `u` mentions `u'`. -/
def LevelLeads (μ : Metas) (u u' : Id) : Prop :=
  ∃ l, μ.levels.lookup u = some l ∧ l.containsMVar u'

/-- The solution of the hole `h` mentions `h'`. -/
def HoleLeads (μ : Metas) (h h' : Id) : Prop :=
  ∃ v, μ.holes.lookup h = some v ∧ v.containsHole h'

/-- No solution leads back to what it solves. -/
structure Acyclic (μ : Metas) : Prop where
  holes : ∀ h, ¬ Relation.TransGen μ.HoleLeads h h
  levels : ∀ u, ¬ Relation.TransGen μ.LevelLeads u u

/-- Solutions of `μ` are solutions of `μ'`. -/
structure Le (μ μ' : Metas) : Prop where
  holes : ∀ h v, μ.holes.lookup h = some v → μ'.holes.lookup h = some v
  levels : ∀ u l, μ.levels.lookup u = some l → μ'.levels.lookup u = some l

lemma Le.refl (μ : Metas) : μ.Le μ :=
  ⟨fun _ _ h => h, fun _ _ h => h⟩

lemma Le.trans {μ'' : Metas} (h : μ.Le μ') (h' : μ'.Le μ'') : μ.Le μ'' :=
  ⟨fun k v hv => h'.holes k v (h.holes k v hv), fun u l hl => h'.levels u l (h.levels u l hl)⟩

/-- With fewer solutions there is less to lead anywhere. -/
lemma levels_acyclic_of_le (h : ∀ u, ¬ Relation.TransGen μ'.LevelLeads u u)
    (hle : ∀ u l, μ.levels.lookup u = some l → μ'.levels.lookup u = some l) :
    ∀ u, ¬ Relation.TransGen μ.LevelLeads u u :=
  fun u hu => h u (Relation.TransGen.mono (fun _ _ ⟨l, hl, hin⟩ => ⟨l, hle _ l hl, hin⟩) u u hu)

lemma Acyclic.of_le (h : μ'.Acyclic) (hle : μ.Le μ') : μ.Acyclic where
  holes k hk := h.holes k (Relation.TransGen.mono (fun _ _ ⟨v, hv, hin⟩ => ⟨v, hle.holes _ v hv, hin⟩) k k hk)
  levels := levels_acyclic_of_le h.levels hle.levels

variable {μ : Metas}

/-- Solutions without holes and metavariables lead nowhere. -/
lemma Acyclic.of_ground (hholes : ∀ p ∈ μ.holes, ∀ h, p.2.containsHole h = false)
    (hlevels : ∀ p ∈ μ.levels, p.2.mvars = []) : μ.Acyclic where
  holes h hh := by
    obtain ⟨h', ⟨v, hv, hin⟩, -⟩ := Relation.TransGen.head'_iff.mp hh
    simp [hholes (h, v) (mem_of_lookup_eq_some hv) h'] at hin
  levels u hu := by
    obtain ⟨u', ⟨l, hl, hin⟩, -⟩ := Relation.TransGen.head'_iff.mp hu
    simp [containsMVar, hlevels (u, l) (mem_of_lookup_eq_some hl)] at hin

/-! ### Universe metavariables -/

lemma instantiateLevelTo_eq_subst (depth : Nat) (l : Level) :
    μ.instantiateLevelTo depth l = l.subst .param fun u => μ.instantiateLevelTo depth (.mvar u) := by
  cases depth with
  | zero => exact l.subst_self.symm
  | succ depth => rfl

lemma instantiateLevel_eq (μ : Metas) (l : Level) :
    μ.instantiateLevel l = μ.instantiateLevelTo μ.levels.length l := by
  unfold instantiateLevel
  split
  · rfl
  · rename_i h
    have hl : l.Admitted l.params := ⟨by simpa using h, fun _ hp => hp⟩
    rw [instantiateLevelTo_eq_subst]
    exact l.subst_self.symm.trans (hl.subst_congr fun _ _ => rfl)

lemma instantiateLevel_subst (μ : Metas) (g : Id → Level) (l : Level) :
    μ.instantiateLevel (l.subst .param g) = l.subst .param fun u => μ.instantiateLevel (g u) := by
  rw [instantiateLevel_eq, instantiateLevelTo_eq_subst, subst_subst]
  congr 1
  funext u
  rw [instantiateLevel_eq, instantiateLevelTo_eq_subst]

lemma instantiateLevel_eq_subst (μ : Metas) (l : Level) :
    μ.instantiateLevel l = l.subst .param fun u => μ.instantiateLevel (.mvar u) := by
  rw [← instantiateLevel_subst, subst_self]

lemma instantiateLevel_succ (μ : Metas) (l : Level) : μ.instantiateLevel l.succ = (μ.instantiateLevel l).succ := by
  rw [instantiateLevel_eq_subst, subst, ← instantiateLevel_eq_subst]

lemma instantiateLevel_max (μ : Metas) (a b : Level) :
    μ.instantiateLevel (a.max b) = (μ.instantiateLevel a).max (μ.instantiateLevel b) := by
  rw [instantiateLevel_eq_subst, subst, ← instantiateLevel_eq_subst, ← instantiateLevel_eq_subst]

lemma instantiateLevel_imax (μ : Metas) (a b : Level) :
    μ.instantiateLevel (a.imax b) = (μ.instantiateLevel a).imax (μ.instantiateLevel b) := by
  rw [instantiateLevel_eq_subst, subst, ← instantiateLevel_eq_subst, ← instantiateLevel_eq_subst]

lemma instantiateLevel_mvar_of_none (h : μ.levels.lookup u = none) : μ.instantiateLevel (.mvar u) = .mvar u := by
  rw [instantiateLevel_eq]
  cases μ.levels.length with
  | zero => rfl
  | succ n => simp [instantiateLevelTo, subst, h]

private lemma instantiateLevelTo_succ
    (hrank : ∀ u l, μ.levels.lookup u = some l → 0 < rank u ∧ ∀ u' ∈ l.mvars, rank u' < rank u)
    (hl : ∀ u ∈ l.mvars, rank u ≤ depth) : μ.instantiateLevelTo (depth + 1) l = μ.instantiateLevelTo depth l := by
  induction depth generalizing l with
  | zero =>
    refine (subst_congr fun u hu => ?_).trans l.subst_self
    cases hv : μ.levels.lookup u with
    | none => rfl
    | some l' =>
      have hpos := (hrank u l' hv).1
      have hzero := hl u hu
      omega
  | succ depth ih =>
    refine subst_congr fun u hu => ?_
    cases hv : μ.levels.lookup u with
    | none => rfl
    | some l' =>
      refine ih fun u' hu' => ?_
      have hlow := (hrank u l' hv).2 u' hu'
      have hhigh := hl u hu
      omega

/-- A solved metavariable stands for its solution, with the others put in. -/
lemma instantiateLevel_mvar (hμ : ∀ u, ¬ Relation.TransGen μ.LevelLeads u u) (h : μ.levels.lookup u = some l) :
    μ.instantiateLevel (.mvar u) = μ.instantiateLevel l := by
  obtain ⟨rank, hbound, hpos, hlow⟩ := exists_rank hμ fun _ _ ⟨_, hl, _⟩ => mem_keys_of_lookup hl
  have hrank : ∀ u l, μ.levels.lookup u = some l → 0 < rank u ∧ ∀ u' ∈ l.mvars, rank u' < rank u :=
    fun u l hl => ⟨hpos u (mem_keys_of_lookup hl), fun u' hu' => hlow u u' ⟨l, hl, by simpa [containsMVar]⟩⟩
  have hu := hbound u
  rw [length_map] at hu
  rw [instantiateLevel_eq, instantiateLevel_eq]
  generalize μ.levels.length = n at hu
  cases n with
  | zero => exact absurd (hrank u l h).1 (by omega)
  | succ n =>
    have hsolution : μ.instantiateLevelTo (n + 1) (.mvar u) = μ.instantiateLevelTo n l := by
      simp [instantiateLevelTo, subst, h]
    rw [hsolution]
    refine (instantiateLevelTo_succ hrank fun u' hu' => ?_).symm
    have hlt := (hrank u l h).2 u' hu'
    omega

/-- Solutions may be put in before more of them are known. -/
lemma instantiateLevel_instantiateLevel (hμ' : ∀ u, ¬ Relation.TransGen μ'.LevelLeads u u)
    (hle : ∀ u l, μ.levels.lookup u = some l → μ'.levels.lookup u = some l) (l : Level) :
    μ'.instantiateLevel (μ.instantiateLevel l) = μ'.instantiateLevel l := by
  obtain ⟨rank, -, -, hlow⟩ := exists_rank hμ' fun _ _ ⟨_, hl, _⟩ => mem_keys_of_lookup hl
  have hmvar : ∀ u, μ'.instantiateLevel (μ.instantiateLevel (.mvar u)) = μ'.instantiateLevel (.mvar u) := by
    intro u
    induction hr : rank u using Nat.strong_induction_on generalizing u with
    | _ r ih =>
      cases hl : μ.levels.lookup u with
      | none => rw [instantiateLevel_mvar_of_none hl]
      | some l =>
        have hl' := hle u l hl
        rw [instantiateLevel_mvar (levels_acyclic_of_le hμ' hle) hl, instantiateLevel_mvar hμ' hl',
          instantiateLevel_eq_subst μ, instantiateLevel_subst, instantiateLevel_eq_subst μ']
        refine subst_congr fun u' hu' => ih (rank u') ?_ u' rfl
        rw [← hr]
        exact hlow u u' ⟨l, hl', by simpa [containsMVar]⟩
  rw [instantiateLevel_eq_subst μ, instantiateLevel_subst, instantiateLevel_eq_subst μ']
  exact subst_congr fun u _ => hmvar u

/-- What holds of the metavariables of a level and of those of the solutions holds of all that are left. -/
lemma forall_mem_mvars_instantiateLevel
    (hμ : ∀ u l, μ.levels.lookup u = some l → ∀ w ∈ l.mvars, Q w) (hl : ∀ u ∈ l.mvars, Q u) :
    ∀ u ∈ (μ.instantiateLevel l).mvars, Q u := by
  rw [instantiateLevel_eq]
  generalize μ.levels.length = depth
  induction depth generalizing l with
  | zero => exact hl
  | succ depth ih =>
    intro u hu
    obtain ⟨w, hw, hu⟩ := exists_of_mem_mvars hu
    cases hv : μ.levels.lookup w with
    | none =>
      rw [hv] at hu
      exact mem_singleton.mp hu ▸ hl w hw
    | some l' =>
      rw [hv] at hu
      exact ih (hμ w l' hv) u hu

/-- Metavariables are left only where they have no solution. -/
lemma lookup_of_mem_mvars (hμ : ∀ u, ¬ Relation.TransGen μ.LevelLeads u u) (hu : u ∈ (μ.instantiateLevel l).mvars) :
    μ.levels.lookup u = none := by
  obtain ⟨rank, -, -, hlow⟩ := exists_rank hμ fun _ _ ⟨_, hl, _⟩ => mem_keys_of_lookup hl
  have hmvar : ∀ w, u ∈ (μ.instantiateLevel (.mvar w)).mvars → μ.levels.lookup u = none := by
    intro w
    induction hr : rank w using Nat.strong_induction_on generalizing w with
    | _ r ih =>
      intro hu
      cases hl : μ.levels.lookup w with
      | none =>
        rw [instantiateLevel_mvar_of_none hl] at hu
        exact mem_singleton.mp hu ▸ hl
      | some l =>
        rw [instantiateLevel_mvar hμ hl, instantiateLevel_eq_subst] at hu
        obtain ⟨w', hw', hu⟩ := exists_of_mem_mvars hu
        exact ih (rank w') (hr ▸ hlow w w' ⟨l, hl, by simpa [containsMVar]⟩) w' rfl hu
  rw [instantiateLevel_eq_subst] at hu
  obtain ⟨w, -, hu⟩ := exists_of_mem_mvars hu
  exact hmvar w hu

end Metas

/-! ## Closed solutions -/

/-- What may occur in terms over levels that satisfy `L`: hypotheses that satisfy `P`, and all constants, constructors
and holes. -/
def Scope.leveled (L : Level → Prop) (P : Id → Prop) : Scope where
  free := P
  level := L
  const _ ls := ∀ l ∈ ls, L l
  ctor _ _ ls := ∀ l ∈ ls, L l

lemma Scope.leveled_le (h : ∀ x, P x → Q x) : (leveled L P).Le (leveled L Q) where
  free := h

/-- Terms in which metavariables are told apart by number. -/
def Scope.plain (P : Id → Prop) : Scope where
  free := P
  level := Level.Plain
  const _ ls := ∀ l ∈ ls, l.Plain
  ctor _ _ ls := ∀ l ∈ ls, l.Plain

lemma Term.mapLevels_eq_self_of_anyLevel {f : Level → Level} {p : Level → Bool} (hf : ∀ l, p l = false → f l = l)
    (h : m.anyLevel p = false) : m.mapLevels f = m := by
  have hls : ∀ ls : List Level, ls.any p = false → ls.map f = ls := by
    intro ls hany
    refine (map_congr_left fun l hl => hf l ?_).trans ls.map_id
    simpa using any_eq_false.mp hany l hl
  induction m with
  | sort l => rw [mapLevels, hf l h]
  | const c ls | ctor t i c ls => rw [mapLevels, hls ls h]
  | app g a ihg iha =>
    obtain ⟨hg, ha⟩ := Bool.or_eq_false_iff.mp h
    rw [mapLevels, ihg hg, iha ha]
  | lam x t b iht ihb | pi x i t b iht ihb =>
    obtain ⟨ht, hb⟩ := Bool.or_eq_false_iff.mp h
    rw [mapLevels, iht ht, ihb hb]
  | _ => rfl

namespace Metas

/-- Holes are solved by closed terms, and metavariables in solutions are told apart by number. -/
structure Closed (μ : Metas) : Prop where
  holes : ∀ h v, μ.holes.lookup h = some v → v.In (.plain fun _ => False) 0
  levels : ∀ u l, μ.levels.lookup u = some l → l.Plain

lemma Closed.plain_instantiateLevel (hμ : μ.Closed) (hl : l.Plain) : (μ.instantiateLevel l).Plain :=
  forall_mem_mvars_instantiateLevel hμ.levels hl

variable (μ : Metas)

lemma instantiate_eq_mapLevels (m : Term) :
    μ.instantiate m = (m.resolveHoles (μ.holes.lookup ·) μ.holes.length).mapLevels μ.instantiateLevel := by
  unfold instantiate
  dsimp only
  split
  · rename_i h
    rcases Bool.or_eq_true_iff.mp h with hempty | hnone
    · refine (Term.mapLevels_eq_self (fun l => ?_) _).symm
      rw [instantiateLevel_eq, isEmpty_iff.mp hempty]
      rfl
    · refine (Term.mapLevels_eq_self_of_anyLevel (fun l hl => ?_) (by simpa [Term.hasLevelMVar] using hnone)).symm
      simp [instantiateLevel, hl]
  · rfl

/-- What is put for a hole: its solution, with the others put in as deep as the other solutions may lead. -/
def filling (h : Id) : Option Term :=
  (μ.holes.lookup h).map fun v =>
    (v.resolveHoles (μ.holes.lookup ·) (μ.holes.length - 1)).mapLevels μ.instantiateLevel

lemma instantiate_eq_fillHolesApp (m : Term) :
    μ.instantiate m = (m.mapLevels μ.instantiateLevel).fillHolesApp μ.filling [] := by
  rw [instantiate_eq_mapLevels]
  cases hlen : μ.holes.length with
  | zero =>
    have hnil := length_eq_zero_iff.mp hlen
    have hin : (m.mapLevels μ.instantiateLevel).In {} _ := Term.in_looseBound (Nat.le_refl _)
    refine (Term.fillHolesApp_eq_apply hin (fun h _ => ?_) []).symm
    simp [filling, hnil]
  | succ n =>
    refine (Term.mapLevels_fillHolesApp ..).trans ?_
    congr 1
    funext h
    simp [filling, hlen, Function.comp_def]

lemma instantiate_hole_eq_getD (h : Id) (d : Bool) : μ.instantiate (.hole h d) = (μ.filling h).getD (.hole h d) := by
  rw [instantiate_eq_fillHolesApp, Term.mapLevels]
  · cases hv : μ.filling h with
    | none => exact Term.fillHolesApp_none hv d []
    | some v =>
      rw [Term.fillHolesApp_some hv]
      cases v <;> rfl
  all_goals simp

variable {μ}

lemma instantiate_hole_of_none (hv : μ.holes.lookup h = none) (d : Bool) : μ.instantiate (.hole h d) = .hole h d := by
  rw [instantiate_hole_eq_getD]
  simp [filling, hv]

/-- A solved hole stands for its solution, with the others put in. -/
lemma instantiate_hole (hμ : μ.Acyclic) (hv : μ.holes.lookup h = some v) (d : Bool) :
    μ.instantiate (.hole h d) = μ.instantiate v := by
  obtain ⟨rank, hbound, hpos, hlow⟩ := exists_rank hμ.holes fun _ _ ⟨_, hv, _⟩ => mem_keys_of_lookup hv
  have hrank : ∀ h v, μ.holes.lookup h = some v → 0 < rank h ∧ ∀ h', v.containsHole h' → rank h' < rank h :=
    fun h v hv => ⟨hpos h (mem_keys_of_lookup hv), fun h' hh' => hlow h h' ⟨v, hv, hh'⟩⟩
  have hlen := hbound h
  rw [length_map] at hlen
  have hsucc : μ.holes.length - 1 + 1 = μ.holes.length := by
    have := (hrank h v hv).1
    omega
  have hdepth : v.resolveHoles (μ.holes.lookup ·) (μ.holes.length - 1) =
      v.resolveHoles (μ.holes.lookup ·) μ.holes.length := by
    rw [← Term.resolveHoles_succ hrank fun h' hh' => ?_, hsucc]
    have := (hrank h v hv).2 h' hh'
    omega
  rw [instantiate_hole_eq_getD, instantiate_eq_mapLevels, ← hdepth]
  simp only [filling, hv, Option.map_some, Option.getD_some]

/-- Holes are solved by closed terms over levels that satisfy `L`, and solutions of metavariables keep such levels. -/
structure ClosedOver (L : Level → Prop) (μ : Metas) : Prop where
  holes : ∀ h v, μ.holes.lookup h = some v → v.In (.leveled L fun _ => False) 0
  levels : ∀ l, L l → L (μ.instantiateLevel l)

lemma Closed.closedOver (hμ : μ.Closed) : μ.ClosedOver Level.Plain :=
  ⟨hμ.holes, fun _ => hμ.plain_instantiateLevel⟩

/-- Putting solutions in brings in no hypotheses and no loose indices. -/
lemma ClosedOver.instantiate_in (hμ : μ.ClosedOver L) (hm : m.In (.leveled L P) k) :
    (μ.instantiate m).In (.leveled L P) k := by
  have hvalue : ∀ h v, μ.holes.lookup h = some v → v.In (.leveled L P) 0 :=
    fun h v hv => (hμ.holes h v hv).widen (Scope.leveled_le fun _ hx => hx.elim)
  have hls : ∀ ls : List Level, (∀ l ∈ ls, L l) → ∀ l ∈ ls.map μ.instantiateLevel, L l :=
    fun ls h => forall_mem_map.mpr fun l hl => hμ.levels l (h l hl)
  rw [instantiate_eq_mapLevels]
  exact (hm.resolveHoles hvalue).mapLevels (fun _ hx => hx) (fun _ hh => hh) hμ.levels (fun _ ls h => hls ls h)
    fun _ _ ls h => hls ls h

lemma Closed.instantiate_in (hμ : μ.Closed) (hm : m.In (.plain P) k) : (μ.instantiate m).In (.plain P) k :=
  hμ.closedOver.instantiate_in hm

/-- The settling by solutions: what is put for a hole or a metavariable on its own. -/
def Closed.settling (hμ : μ.Closed) : Settling where
  hole h d := μ.instantiate (.hole h d)
  level n := μ.instantiateLevel (.mvar ⟨n, none⟩)
  closed h d := by
    have hin : (μ.instantiate (.hole h d)).In (.plain fun _ => False) 0 := hμ.instantiate_in (k := 0) trivial
    exact hin.widen { level := fun _ _ => trivial, const := fun _ _ _ => trivial, ctor := fun _ _ _ _ => trivial }

lemma Closed.settle_level (hμ : μ.Closed) (hl : l.Plain) : l.settle hμ.settling = μ.instantiateLevel l := by
  rw [instantiateLevel_eq_subst]
  refine subst_congr fun u hu => ?_
  have hu : (⟨u.number, none⟩ : Id) = u := by
    rw [← hl u hu]
  rw [← hu]
  rfl

end Metas

/-! ## Putting solutions in, and settling -/

namespace Env

variable {env : Env} {μ μ' : Metas} {P : Id → Prop} {k : Nat}
variable {m : Term}

/-- Putting solutions in leads to the same term as settling, up to contraction. -/
lemma conv_instantiate (hμ : μ.Closed) (hm : m.In (.plain P) k) :
    env.Conv (μ.instantiate m) (m.settle hμ.settling) := by
  have hlevels : ∀ ls : List Level, (∀ l ∈ ls, l.Plain) →
      ls.map μ.instantiateLevel = ls.map (·.settle hμ.settling) :=
    fun ls hls => map_congr_left fun l hl => (hμ.settle_level (hls l hl)).symm
  suffices ∀ args, env.Conv ((m.mapLevels μ.instantiateLevel).fillHolesApp μ.filling args)
      ((m.settle hμ.settling).apply args) from μ.instantiate_eq_fillHolesApp m ▸ this []
  induction m generalizing k with
  | hole h d =>
    intro args
    show env.Conv ((Term.hole h d).fillHolesApp μ.filling args) ((μ.instantiate (.hole h d)).apply args)
    rw [instantiate_hole_eq_getD]
    cases hv : μ.filling h with
    | none =>
      rw [Term.fillHolesApp_none hv]
      exact .refl _
    | some v =>
      rw [Term.fillHolesApp_some hv]
      exact (Conv.of_steps (.beta v args)).symm
  | sort l =>
    intro args
    rw [Term.settle, hμ.settle_level hm]
    exact .refl _
  | const c ls | ctor t i c ls =>
    intro args
    rw [Term.settle, ← hlevels ls hm]
    exact .refl _
  | app f a ihf iha =>
    intro args
    rw [Term.fillHolesApp_eq]
    exact (ihf hm.1 _).trans (Conv.apply_left (.app (.refl _) (iha hm.2 [])) args)
  | lam x t b iht ihb =>
    intro args
    rw [Term.fillHolesApp_eq]
    exact Conv.apply_left (.lam (iht hm.1 []) (ihb hm.2 [])) args
  | pi x i t b iht ihb =>
    intro args
    rw [Term.fillHolesApp_eq]
    exact Conv.apply_left (.pi (iht hm.1 []) (ihb hm.2 [])) args
  | _ =>
    intro args
    exact .refl _

/-- A hole is settled alike whether it is deferred or not. -/
lemma conv_settling_hole (hμ : μ.Closed) (h : Id) (d d' : Bool) :
    env.Conv (hμ.settling.hole h d) (hμ.settling.hole h d') := by
  show env.Conv (μ.instantiate (.hole h d)) (μ.instantiate (.hole h d'))
  rw [instantiate_hole_eq_getD, instantiate_hole_eq_getD]
  cases μ.filling h with
  | none => exact .hole h d d'
  | some v => exact .refl v

lemma Conv.settled (henv : env.Scoped) (hμ : μ.Closed) (h : env.Conv m m') :
    env.Conv (m.settle hμ.settling) (m'.settle hμ.settling) :=
  h.settle henv (conv_settling_hole hμ)

lemma settle_level_comp (hμ : μ.Closed) (hμ' : μ'.Closed) (hacyclic : μ'.Acyclic) (hle : μ.Le μ') (hl : l.Plain) :
    l.settle (hμ.settling.comp hμ'.settling) = l.settle hμ'.settling := by
  rw [← settle_settle, hμ.settle_level hl, hμ'.settle_level (hμ.plain_instantiateLevel hl),
    hμ'.settle_level hl, instantiateLevel_instantiateLevel hacyclic.levels hle.levels]

/-- Solutions may be put in before more of them are known. -/
lemma conv_settle_instantiate (henv : env.Scoped) (hμ : μ.Closed) (hμ' : μ'.Closed) (hacyclic : μ'.Acyclic)
    (hle : μ.Le μ') (hm : m.In (.plain P) k) :
    env.Conv ((μ.instantiate m).settle hμ'.settling) (m.settle hμ'.settling) := by
  obtain ⟨rank, -, -, hlow⟩ := exists_rank hacyclic.holes fun _ _ ⟨_, hv, _⟩ => mem_keys_of_lookup hv
  have hlevel := fun (l : Level) (hl : l.Plain) => settle_level_comp hμ hμ' hacyclic hle hl
  -- settling by `μ` first makes no difference for a term if it makes none for its holes
  have hterm : ∀ {Q : Id → Prop} {k : Nat} {m : Term}, m.In (.plain Q) k →
      (∀ h d, m.containsHole h → env.Conv ((μ.instantiate (.hole h d)).settle hμ'.settling)
        (μ'.instantiate (.hole h d))) →
      env.Conv ((μ.instantiate m).settle hμ'.settling) (m.settle hμ'.settling) := by
    intro Q k m hm hholes
    refine ((conv_instantiate hμ hm).settled henv hμ').trans ?_
    rw [Term.settle_settle]
    exact .settle_congr (hm.holes fun _ hh => hh) (fun h d hh => hholes h d hh) hlevel
      (fun _ _ hls l hl => hlevel l (hls l hl)) fun _ _ _ hls l hl => hlevel l (hls l hl)
  have hhole : ∀ h d, env.Conv ((μ.instantiate (.hole h d)).settle hμ'.settling) (μ'.instantiate (.hole h d)) := by
    intro h d
    induction hr : rank h using Nat.strong_induction_on generalizing h d with
    | _ r ih =>
      cases hv : μ.holes.lookup h with
      | none =>
        rw [instantiate_hole_of_none hv]
        exact .refl _
      | some v =>
        have hv' := hle.holes h v hv
        rw [instantiate_hole (hacyclic.of_le hle) hv, instantiate_hole hacyclic hv']
        refine (hterm (hμ.holes h v hv) fun h' d' hh' => ?_).trans (conv_instantiate hμ' (hμ.holes h v hv)).symm
        exact ih (rank h') (hr ▸ hlow h h' ⟨v, hv', hh'⟩) h' d' rfl
  exact hterm hm fun h d _ => hhole h d

end Env

end ProofAssistant
