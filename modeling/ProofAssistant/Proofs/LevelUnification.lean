import ProofAssistant.Proofs.LevelOrder
import ProofAssistant.Proofs.Solutions
import ProofAssistant.Proofs.UnificationInvariants

/-!
# Unification of levels

Unification of two levels ends, and either leaves the solutions as they were, or adds some that make the levels
equivalent, and keep equivalent what was (`Level.unify_total`). Calls end since each one either solves a metavariable,
of which there are finitely many, or compares smaller levels.
-/

namespace ProofAssistant

open Metas Level List

variable {μ' : Metas} {hint : Nat → Option Name} {solved : Bool}

namespace Metas

variable {Q : Id → Prop} {μ μ' μ'' : Metas}
variable {a b : Level} {u : Id}

/-! ## Solutions that are added -/

/-- No metavariable leads back to itself. -/
def LevelsAcyclic (μ : Metas) : Prop :=
  ∀ u, ¬ Relation.TransGen μ.LevelLeads u u

/-- The solutions of metavariables mention only such that satisfy `Q`. -/
def LevelsWithin (Q : Id → Prop) (μ : Metas) : Prop :=
  ∀ u l, μ.levels.lookup u = some l → ∀ w ∈ l.mvars, Q w

/-- From `μ` to `μ'` metavariables that satisfy `Q` have been solved, by levels over such, and nothing else has
changed. -/
structure LevelsAdded (Q : Id → Prop) (μ μ' : Metas) : Prop where
  acyclic : μ'.LevelsAcyclic
  within : μ'.LevelsWithin Q
  le : ∀ u l, μ.levels.lookup u = some l → μ'.levels.lookup u = some l
  rest : μ' = { μ with levels := μ'.levels }
  progress : μ' = μ ∨ ∃ u, Q u ∧ μ.levels.lookup u = none ∧ μ'.levels.lookup u ≠ none

namespace LevelsAdded

lemma refl (hμ : μ.LevelsAcyclic) (hQ : μ.LevelsWithin Q) : LevelsAdded Q μ μ where
  acyclic := hμ
  within := hQ
  le _ _ h := h
  rest := rfl
  progress := .inl rfl

lemma trans (h : LevelsAdded Q μ μ') (h' : LevelsAdded Q μ' μ'') : LevelsAdded Q μ μ'' where
  acyclic := h'.acyclic
  within := h'.within
  le u l hl := h'.le u l (h.le u l hl)
  rest := h'.rest.trans (by rw [h.rest])
  progress := by
    rcases h.progress with rfl | ⟨u, hu, hnone, hsome⟩
    · exact h'.progress
    · obtain ⟨l, hl⟩ := Option.ne_none_iff_exists'.mp hsome
      exact .inr ⟨u, hu, hnone, by simp [h'.le u l hl]⟩

lemma instantiateLevel_instantiateLevel (h : LevelsAdded Q μ μ') (l : Level) :
    μ'.instantiateLevel (μ.instantiateLevel l) = μ'.instantiateLevel l :=
  Metas.instantiateLevel_instantiateLevel h.acyclic h.le l

lemma isEquiv_instantiateLevel (h : LevelsAdded Q μ μ')
    (hμ : μ.LevelsWithin fun u => u.hint = hint u.number) (hμ' : μ'.LevelsWithin fun u => u.hint = hint u.number)
    (ha : a.Hinted hint) (hb : b.Hinted hint) (hab : (μ.instantiateLevel a).isEquiv (μ.instantiateLevel b)) :
    (μ'.instantiateLevel a).isEquiv (μ'.instantiateLevel b) := by
  rw [← h.instantiateLevel_instantiateLevel a, ← h.instantiateLevel_instantiateLevel b,
    instantiateLevel_eq_subst μ', instantiateLevel_eq_subst μ' (μ.instantiateLevel b)]
  have hput : ∀ u : Id, u.hint = hint u.number → (μ'.instantiateLevel (.mvar u)).Hinted hint :=
    fun u hu => forall_mem_mvars_instantiateLevel hμ' (forall_mem_singleton.mpr hu)
  exact isEquiv_subst_of_hinted (forall_mem_mvars_instantiateLevel hμ ha)
    (forall_mem_mvars_instantiateLevel hμ hb) (fun _ => .of_hasMVar rfl) hput hab

end LevelsAdded

lemma lookup_assignLevel (μ : Metas) (u : Id) (l : Level) (w : Id) :
    (μ.assignLevel u l).levels.lookup w = if w = u then some l else μ.levels.lookup w :=
  lookup_cons_eq_ite u l μ.levels w

/-- The new solution leads to metavariables without solution only, the others as before. -/
lemma LevelsAcyclic.assignLevel (hμ : μ.LevelsAcyclic) {l : Level}
    (hl : ∀ w ∈ l.mvars, w ≠ u ∧ μ.levels.lookup w = none) : (μ.assignLevel u l).LevelsAcyclic := by
  have hstep : ∀ w w', (μ.assignLevel u l).LevelLeads w w' →
      μ.LevelLeads w w' ∨ (μ.assignLevel u l).levels.lookup w' = none := by
    rintro w w' ⟨l', hl', hw'⟩
    rw [lookup_assignLevel] at hl'
    split at hl'
    · obtain rfl := Option.some.inj hl'
      obtain ⟨hne, hnone⟩ := hl w' (by simpa [containsMVar] using hw')
      exact .inr (by rw [lookup_assignLevel, if_neg hne, hnone])
    · exact .inl ⟨l', hl', hw'⟩
  have hpath : ∀ w w', Relation.TransGen (μ.assignLevel u l).LevelLeads w w' →
      Relation.TransGen μ.LevelLeads w w' ∨ (μ.assignLevel u l).levels.lookup w' = none := by
    intro w w' hp
    induction hp with
    | single h => exact (hstep _ _ h).imp .single id
    | tail _ h ih =>
      rcases ih with ih | ih
      · exact (hstep _ _ h).imp (.tail ih) id
      · obtain ⟨l', hl', -⟩ := h
        exact absurd hl' (by simp [ih])
  intro w hw
  rcases hpath w w hw with hold | hnone
  · exact hμ w hold
  · obtain ⟨w', ⟨l', hl', -⟩, -⟩ := Relation.TransGen.head'_iff.mp hw
    exact absurd hl' (by simp [hnone])

/-- An open metavariable is solved by a level in which all solutions have been put and it does not occur. -/
lemma LevelsAdded.assignLevel (hμ : μ.LevelsAcyclic) (hQ : μ.LevelsWithin Q) (ha : ∀ w ∈ a.mvars, Q w)
    (hb : ∀ w ∈ b.mvars, Q w) (hu : μ.instantiateLevel a = .mvar u) (hnot : ¬ (μ.instantiateLevel b).containsMVar u) :
    LevelsAdded Q μ (μ.assignLevel u (μ.instantiateLevel b)) := by
  have hmem : u ∈ (μ.instantiateLevel a).mvars := hu ▸ mem_singleton_self u
  have hopen : μ.levels.lookup u = none := lookup_of_mem_mvars hμ hmem
  have hmvars : ∀ w ∈ (μ.instantiateLevel b).mvars, w ≠ u ∧ μ.levels.lookup w = none := by
    refine fun w hw => ⟨fun heq => hnot ?_, lookup_of_mem_mvars hμ hw⟩
    rw [← heq]
    simpa [containsMVar] using hw
  refine ⟨hμ.assignLevel hmvars, fun w l hl => ?_, fun w l hl => ?_, rfl, .inr ⟨u, ?_, hopen, ?_⟩⟩
  · rw [lookup_assignLevel] at hl
    split at hl
    · exact Option.some.inj hl ▸ forall_mem_mvars_instantiateLevel hQ hb
    · exact hQ w l hl
  · have hw : w ≠ u := fun heq => by simp [heq, hopen] at hl
    rw [lookup_assignLevel, if_neg hw, hl]
  · exact forall_mem_mvars_instantiateLevel hQ ha u hmem
  · simp [lookup_assignLevel]

/-- After this both levels are the same. -/
lemma LevelsAdded.instantiateLevel_eq (h : LevelsAdded Q μ (μ.assignLevel u (μ.instantiateLevel b)))
    (hu : μ.instantiateLevel a = .mvar u) : (μ.assignLevel u (μ.instantiateLevel b)).instantiateLevel a =
      (μ.assignLevel u (μ.instantiateLevel b)).instantiateLevel b := by
  rw [← h.instantiateLevel_instantiateLevel a, hu,
    instantiateLevel_mvar h.acyclic ((lookup_assignLevel ..).trans (if_pos rfl)), h.instantiateLevel_instantiateLevel]

end Metas

/-! ## Attempts and their runs -/

namespace SolveM

variable {μ : Metas}
variable {x : Nat → SolveM Bool}

lemma run_orRestore (x : SolveM Bool) (μ : Metas) :
    (orRestore x).run μ = (x.run μ).bind fun r => some (if r.1 then r else (false, μ)) := by
  refine congrArg (Option.bind (x.run μ)) (funext fun ⟨solved, ν⟩ => ?_)
  cases solved <;> rfl

lemma run_andThen (x y : SolveM Bool) (μ : Metas) :
    (do if ← x then y else return false : SolveM Bool).run μ =
      (x.run μ).bind fun r => if r.1 then y.run r.2 else some r := by
  refine congrArg (Option.bind (x.run μ)) (funext fun ⟨solved, ν⟩ => ?_)
  cases solved <;> rfl

/-- An attempt in two parts is taken back if one of them fails. -/
lemma run_orRestore_andThen {x y : SolveM Bool}
    (h : (orRestore (do if ← x then y else return false)).run μ = some (solved, μ')) :
    solved = false ∧ μ' = μ ∨
      solved = true ∧ ∃ μ₁, x.run μ = some (true, μ₁) ∧ y.run μ₁ = some (true, μ') := by
  rw [run_orRestore, run_andThen, Option.bind_assoc] at h
  obtain ⟨⟨first, μ₁⟩, hx, h⟩ := Option.bind_eq_some_iff.mp h
  cases first with
  | false =>
    obtain ⟨rfl, rfl⟩ := Prod.mk.inj (Option.some.inj h)
    exact .inl ⟨rfl, rfl⟩
  | true =>
    obtain ⟨⟨second, μ₂⟩, hy, h⟩ := Option.bind_eq_some_iff.mp h
    cases second <;> obtain ⟨rfl, rfl⟩ := Prod.mk.inj (Option.some.inj h)
    · exact .inl ⟨rfl, rfl⟩
    · exact .inr ⟨rfl, μ₁, hx, hy⟩

/-- With enough fuel the computation ends, always with the same answer and solutions. -/
def Ends (x : Nat → SolveM Bool) (μ : Metas) : Prop :=
  ∃ solved μ' enough, ∀ fuel, enough ≤ fuel → (x fuel).run μ = some (solved, μ')

lemma Ends.of_succ (h : Ends (fun fuel => x (fuel + 1)) μ) : Ends x μ := by
  obtain ⟨solved, μ', h⟩ := h
  exact ⟨solved, μ', exists_enough_of_succ h⟩

lemma Ends.andThen {y : Nat → SolveM Bool} (hx : Ends x μ)
    (hy : ∀ fuel μ₁, (x fuel).run μ = some (true, μ₁) → Ends y μ₁) :
    Ends (fun fuel => do if ← x fuel then y fuel else return false) μ := by
  obtain ⟨solved, μ₁, enough, hx⟩ := hx
  cases solved with
  | false =>
    refine ⟨false, μ₁, enough, fun fuel hfuel => ?_⟩
    rw [run_andThen, hx fuel hfuel]
    rfl
  | true =>
    obtain ⟨solved, μ₂, enough', hy⟩ := hy enough μ₁ (hx enough (Nat.le_refl _))
    refine ⟨solved, μ₂, max enough enough', fun fuel hfuel => ?_⟩
    rw [run_andThen, hx fuel (by omega)]
    exact hy fuel (by omega)

lemma Ends.orRestore (hx : Ends x μ) : Ends (fun fuel => SolveM.orRestore (x fuel)) μ := by
  obtain ⟨solved, μ', enough, hx⟩ := hx
  refine ⟨solved, if solved then μ' else μ, enough, fun fuel hfuel => ?_⟩
  rw [run_orRestore, hx fuel hfuel]
  cases solved <;> rfl

end SolveM

/-! ## The two maxima -/

namespace Level

section Joins

variable {join : Level → Level → Level} (hjoin : join = .max ∨ join = .imax)

include hjoin

lemma mvars_join (a b : Level) : (join a b).mvars = a.mvars ++ b.mvars := by
  rcases hjoin with rfl | rfl <;> rfl

lemma instantiateLevel_join (μ : Metas) (a b : Level) :
    μ.instantiateLevel (join a b) = join (μ.instantiateLevel a) (μ.instantiateLevel b) := by
  rcases hjoin with rfl | rfl
  · exact μ.instantiateLevel_max a b
  · exact μ.instantiateLevel_imax a b

lemma isEquiv_join {a a' b b' : Level} (ha : a.Hinted hint) (ha' : a'.Hinted hint)
    (hb : b.Hinted hint) (hb' : b'.Hinted hint) (h : a.isEquiv b) (h' : a'.isEquiv b') :
    (join a a').isEquiv (join b b') := by
  rcases hjoin with rfl | rfl
  · exact isEquiv_max ha hb ha' hb' h h'
  · exact isEquiv_imax ha hb ha' hb' h h'

end Joins

/-! ## All calls -/

variable {hint : Nat → Option Name} {Q : Id → Prop} {μ : Metas} {a b : Level}

/-- A call that fails changes nothing, and one that succeeds only adds solutions, with which the levels are
equivalent. -/
lemma unify_added (hQ : ∀ u, Q u → u.hint = hint u.number) (hμ : μ.LevelsAcyclic) (hwithin : μ.LevelsWithin Q)
    (ha : ∀ u ∈ a.mvars, Q u) (hb : ∀ u ∈ b.mvars, Q u) {fuel : Nat} (h : (unify fuel a b).run μ = some (solved, μ')) :
    solved = false ∧ μ' = μ ∨ solved = true ∧ Metas.LevelsAdded Q μ μ' ∧
      (μ'.instantiateLevel a).isEquiv (μ'.instantiateLevel b) := by
  have hinted {μ : Metas} (hμ : μ.LevelsWithin Q) {l : Level} (hl : ∀ u ∈ l.mvars, Q u) :
      (μ.instantiateLevel l).Hinted hint :=
    fun u hu => hQ u (forall_mem_mvars_instantiateLevel hμ hl u hu)
  induction fuel generalizing a b μ solved μ' with
  | zero => exact nomatch h
  | succ fuel ih =>
    have hA := forall_mem_mvars_instantiateLevel hwithin ha
    have hB := forall_mem_mvars_instantiateLevel hwithin hb
    cases unifyStep μ a b with
    | fails hrun =>
      obtain ⟨rfl, rfl⟩ := Prod.mk.inj (Option.some.inj ((hrun fuel).symm.trans h))
      exact .inl ⟨rfl, rfl⟩
    | equiv hequiv hrun =>
      obtain ⟨rfl, rfl⟩ := Prod.mk.inj (Option.some.inj ((hrun fuel).symm.trans h))
      exact .inr ⟨rfl, .refl hμ hwithin, hequiv⟩
    | assignLeft hu hnot hrun =>
      obtain ⟨rfl, rfl⟩ := Prod.mk.inj (Option.some.inj ((hrun fuel).symm.trans h))
      have hadded := Metas.LevelsAdded.assignLevel hμ hwithin ha hb hu hnot
      exact .inr ⟨rfl, hadded, isEquiv_iff_normalize.mpr (congrArg normalize (hadded.instantiateLevel_eq hu))⟩
    | assignRight hu hnot hrun =>
      obtain ⟨rfl, rfl⟩ := Prod.mk.inj (Option.some.inj ((hrun fuel).symm.trans h))
      have hadded := Metas.LevelsAdded.assignLevel hμ hwithin hb ha hu hnot
      exact .inr ⟨rfl, hadded, isEquiv_iff_normalize.mpr (congrArg normalize (hadded.instantiateLevel_eq hu).symm)⟩
    | @succ a₁ b₁ hA' hB' hrun =>
      rw [hA'] at hA
      rw [hB'] at hB
      rcases ih (a := a₁) (b := b₁) hμ hwithin hA hB ((hrun fuel).symm.trans h) with
        ⟨rfl, rfl⟩ | ⟨rfl, hadded, hequiv⟩
      · exact .inl ⟨rfl, rfl⟩
      · refine .inr ⟨rfl, hadded, ?_⟩
        rw [← hadded.instantiateLevel_instantiateLevel a, ← hadded.instantiateLevel_instantiateLevel b, hA', hB',
          instantiateLevel_succ, instantiateLevel_succ]
        exact isEquiv_succ (hinted hadded.within hA) (hinted hadded.within hB) hequiv
    | @parts join a₁ a₂ b₁ b₂ hjoin hA' hB' hrun =>
      rw [hA', mvars_join hjoin, forall_mem_append] at hA
      rw [hB', mvars_join hjoin, forall_mem_append] at hB
      rcases SolveM.run_orRestore_andThen ((hrun fuel).symm.trans h) with ⟨rfl, rfl⟩ | ⟨rfl, μ₁, hfirst, hsecond⟩
      · exact .inl ⟨rfl, rfl⟩
      obtain ⟨-, hadded₁, hequiv₁⟩ := (ih hμ hwithin hA.1 hB.1 hfirst).resolve_left (by simp)
      obtain ⟨-, hadded₂, hequiv₂⟩ := (ih hadded₁.acyclic hadded₁.within hA.2 hB.2 hsecond).resolve_left (by simp)
      have hadded := hadded₁.trans hadded₂
      -- what the first part has made equivalent stays so
      have hkept := hadded₂.isEquiv_instantiateLevel (fun u l hl w hw => hQ w (hadded₁.within u l hl w hw))
        (fun u l hl w hw => hQ w (hadded₂.within u l hl w hw)) (fun u hu => hQ u (hA.1 u hu))
        (fun u hu => hQ u (hB.1 u hu)) hequiv₁
      refine .inr ⟨rfl, hadded, ?_⟩
      rw [← hadded.instantiateLevel_instantiateLevel a, ← hadded.instantiateLevel_instantiateLevel b, hA', hB',
        instantiateLevel_join hjoin, instantiateLevel_join hjoin]
      exact isEquiv_join hjoin (hinted hadded.within hA.1) (hinted hadded.within hA.2) (hinted hadded.within hB.1)
        (hinted hadded.within hB.2) hkept hequiv₂

end Level

/-! ## Termination -/

namespace Metas

/-- How many of the metavariables are open. -/
def openCount (V : Finset Id) (μ : Metas) : Nat :=
  (V.filter fun u => μ.levels.lookup u = none).card

lemma LevelsAdded.openCount_lt {V : Finset Id} {μ : Metas} (h : LevelsAdded (· ∈ V) μ μ') (hne : μ' ≠ μ) :
    μ'.openCount V < μ.openCount V := by
  obtain ⟨u, hu, hnone, hsome⟩ := h.progress.resolve_left hne
  refine Finset.card_lt_card ((Finset.ssubset_iff_of_subset fun w hw => ?_).mpr ⟨u, ?_, ?_⟩)
  · obtain ⟨hw, hopen⟩ := Finset.mem_filter.mp hw
    refine Finset.mem_filter.mpr ⟨hw, ?_⟩
    cases hl : μ.levels.lookup w with
    | none => rfl
    | some l => simp [h.le w l hl] at hopen
  · exact Finset.mem_filter.mpr ⟨hu, hnone⟩
  · exact fun hmem => hsome (Finset.mem_filter.mp hmem).2

end Metas

namespace Level

variable {hint : Nat → Option Name}

/-- A call ends: its calls are made with fewer open metavariables, or else with smaller levels. -/
lemma unify_ends {V : Finset Id} (hV : ∀ u ∈ V, u.hint = hint u.number) {μ : Metas} {a b : Level}
    (hμ : μ.LevelsAcyclic) (hwithin : μ.LevelsWithin (· ∈ V)) (ha : ∀ u ∈ a.mvars, u ∈ V)
    (hb : ∀ u ∈ b.mvars, u ∈ V) : SolveM.Ends (unify · a b) μ := by
  have hA := forall_mem_mvars_instantiateLevel hwithin ha
  have hB := forall_mem_mvars_instantiateLevel hwithin hb
  have hput := instantiateLevel_instantiateLevel hμ (fun _ _ h => h) a
  refine .of_succ ?_
  cases unifyStep μ a b with
  | fails hrun => exact ⟨false, μ, 0, fun fuel _ => hrun fuel⟩
  | equiv _ hrun => exact ⟨true, μ, 0, fun fuel _ => hrun fuel⟩
  | assignLeft _ _ hrun | assignRight _ _ hrun => exact ⟨true, _, 0, fun fuel _ => hrun fuel⟩
  | @succ a₁ b₁ hA' hB' hrun =>
    rw [hA'] at hA
    rw [hB'] at hB
    have hsmall : sizeOf (μ.instantiateLevel a₁) < sizeOf (μ.instantiateLevel a) := by
      rw [hA', instantiateLevel_succ, Level.succ.injEq] at hput
      simp [hA', hput]
    obtain ⟨solved, μ', enough, h⟩ := unify_ends (a := a₁) (b := b₁) hV hμ hwithin hA hB
    exact ⟨solved, μ', enough, fun fuel hfuel => (hrun fuel).trans (h fuel hfuel)⟩
  | @parts join a₁ a₂ b₁ b₂ hjoin hA' hB' hrun =>
    rw [hA', mvars_join hjoin, forall_mem_append] at hA
    rw [hB', mvars_join hjoin, forall_mem_append] at hB
    have hsmall : sizeOf (μ.instantiateLevel a₁) < sizeOf (μ.instantiateLevel a) ∧
        sizeOf (μ.instantiateLevel a₂) < sizeOf (μ.instantiateLevel a) := by
      rw [hA', instantiateLevel_join hjoin] at hput
      rw [hA', ← hput]
      rcases hjoin with rfl | rfl <;> simp <;> omega
    have hboth : SolveM.Ends (fun fuel => SolveM.orRestore do
        if ← unify fuel a₁ b₁ then unify fuel a₂ b₂ else return false) μ := by
      refine .orRestore (.andThen (unify_ends hV hμ hwithin hA.1 hB.1) fun fuel μ₁ hfirst => ?_)
      obtain ⟨-, hadded, -⟩ := (unify_added hV hμ hwithin hA.1 hB.1 hfirst).resolve_left (by simp)
      exact unify_ends hV hadded.acyclic hadded.within hA.2 hB.2
    obtain ⟨solved, μ', enough, h⟩ := hboth
    exact ⟨solved, μ', enough, fun fuel hfuel => (hrun fuel).trans (h fuel hfuel)⟩
termination_by (μ.openCount V, sizeOf (μ.instantiateLevel a))
decreasing_by
  · exact .right _ hsmall
  · exact .right _ hsmall.1
  · -- the first call has closed a metavariable, or changed nothing
    by_cases hne : μ₁ = μ
    · subst hne
      exact .right _ hsmall.2
    · exact .left _ _ (hadded.openCount_lt hne)

/-- Where no metavariable leads back to itself, unification of two levels ends. If it succeeds, it has only added
solutions, none of which leads back, and the levels are equivalent with them. If it fails, nothing has changed. -/
theorem unify_total {μ : Metas} {a b : Level} (hμ : μ.LevelsAcyclic)
    (hlevels : ∀ u l, μ.levels.lookup u = some l → l.Hinted hint) (ha : a.Hinted hint) (hb : b.Hinted hint) :
    ∃ solved μ' enough, (∀ fuel, enough ≤ fuel → (Level.unify fuel a b).run μ = some (solved, μ')) ∧
      (solved = true →
        μ'.LevelsAcyclic ∧ (∀ u l, μ.levels.lookup u = some l → μ'.levels.lookup u = some l) ∧
        μ'.holes = μ.holes ∧ μ'.pending = μ.pending ∧
        (μ'.instantiateLevel a).isEquiv (μ'.instantiateLevel b) ∧
        ∀ c d : Level, c.Hinted hint → d.Hinted hint →
          (μ.instantiateLevel c).isEquiv (μ.instantiateLevel d) →
          (μ'.instantiateLevel c).isEquiv (μ'.instantiateLevel d)) ∧
      (solved = false → μ' = μ) := by
  -- the metavariables that occur in the levels and in the solutions, of which there are finitely many
  let V : Finset Id :=
    (a.mvars ++ b.mvars ++ μ.levels.flatMap (·.2.mvars)).toFinset.filter fun u => u.hint = hint u.number
  have hV : ∀ u ∈ V, u.hint = hint u.number := fun u hu => (Finset.mem_filter.mp hu).2
  have haV : ∀ u ∈ a.mvars, u ∈ V := fun u hu => by simp [V, hu, ha u hu]
  have hbV : ∀ u ∈ b.mvars, u ∈ V := fun u hu => by simp [V, hu, hb u hu]
  have hwithin : μ.LevelsWithin (· ∈ V) := by
    intro u l hl w hw
    have hmem : w ∈ μ.levels.flatMap (·.2.mvars) := List.mem_flatMap.mpr ⟨(u, l), mem_of_lookup_eq_some hl, hw⟩
    exact Finset.mem_filter.mpr ⟨List.mem_toFinset.mpr (List.mem_append_right _ hmem), hlevels u l hl w hw⟩
  obtain ⟨solved, μ', enough, hrun⟩ := unify_ends hV hμ hwithin haV hbV
  refine ⟨solved, μ', enough, hrun, ?_⟩
  rcases unify_added hV hμ hwithin haV hbV (hrun enough (Nat.le_refl _)) with ⟨rfl, rfl⟩ | ⟨rfl, hadded, hequiv⟩
  · exact ⟨nofun, fun _ => rfl⟩
  · have hlevels' := fun u l hl w hw => hV w (hadded.within u l hl w hw)
    exact ⟨fun _ => ⟨hadded.acyclic, hadded.le, by rw [hadded.rest], by rw [hadded.rest], hequiv,
      fun c d hc hd => hadded.isEquiv_instantiateLevel hlevels hlevels' hc hd⟩, nofun⟩

/-- Two metavariables are solved one after the other. The second equation mentions the first solution. -/
theorem unify_total_chain :
    let u : Id := ⟨0, none⟩
    let v : Id := ⟨1, none⟩
    let w : Id := ⟨2, none⟩
    let μ : Metas := { levels := [(u, .succ (.mvar v))] }
    let a : Level := .max (.mvar u) (.mvar w)
    let b : Level := .max (.succ (.param ⟨"p"⟩)) (.mvar u)
    ∃ μ' enough, (∀ fuel, enough ≤ fuel → (Level.unify fuel a b).run μ = some (true, μ')) ∧
      μ'.levels = [(w, .succ (.param ⟨"p"⟩)), (v, .param ⟨"p"⟩), (u, .succ (.mvar v))] ∧ μ'.LevelsAcyclic ∧
      (μ'.instantiateLevel a).isEquiv (μ'.instantiateLevel b) := by
  intro u v w μ a b
  have hnone : ({} : Metas).LevelsAcyclic := (Metas.Acyclic.of_ground (by simp) (by simp)).levels
  have hacyclic : μ.LevelsAcyclic := hnone.assignLevel (by simp [mvars, u, v])
  have hlevels : ∀ x l, μ.levels.lookup x = some l → l.Hinted fun _ => none := by
    intro x l hl
    rw [lookup_cons_eq_ite] at hl
    split at hl
    · obtain rfl := Option.some.inj hl
      simp [Hinted, mvars, v]
    · simp at hl
  have ha : a.Hinted fun _ => none := by simp [a, Hinted, mvars, u, w]
  have hb : b.Hinted fun _ => none := by simp [b, Hinted, mvars, u]
  obtain ⟨solved, μ', enough, hrun, hsolved, -⟩ := unify_total hacyclic hlevels ha hb
  have hanswer : (Level.unify (enough + 3) a b).run μ = some (true, { μ with
      levels := [(w, .succ (.param ⟨"p"⟩)), (v, .param ⟨"p"⟩), (u, .succ (.mvar v))] }) := rfl
  obtain ⟨rfl, rfl⟩ := Prod.mk.inj (Option.some.inj ((hrun (enough + 3) (by omega)).symm.trans hanswer))
  obtain ⟨hacyclic', -, -, -, hequiv, -⟩ := hsolved rfl
  exact ⟨_, enough, hrun, rfl, hacyclic', hequiv⟩

end Level

end ProofAssistant
