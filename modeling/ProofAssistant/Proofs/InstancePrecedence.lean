import Mathlib
import ProofAssistant.Proofs.Failures
import ProofAssistant.Proofs.GroundUnification

/-!
# Hypotheses and registered instances

Hypotheses of class type are candidates of the highest priority there is. If a single one fits, it is what the
class type is inhabited by, unless a registered instance that fits has that priority too: then the two tie.
-/

namespace ProofAssistant

open ElabM

variable {depth fuel : Nat} {e : Failure} {cs candidates : List Candidate} {Γ : Context}

namespace Elaborator

/-! ## Attempts -/

section Attempts

variable {α β : Type} {attempt : α → ElabM (Option β)} {a : α} {as bs : List α} {X Y Z : Situation}
  {rs : List (β × Situation)}

/-- The first of several attempts has a result or none, and the others start from the same situation. -/
lemma ends_attempts_cons : (attempts attempt (a :: as)).Ends X rs Y ↔
    ∃ r Z rs', (attempt a).Ends X r Z ∧ (attempts attempt as).Ends X rs' Y ∧ rs = (r.map (·, Z)).toList ++ rs' := by
  simp only [attempts, ends_bind, ends_situation, ends_goTo]
  constructor
  · rintro ⟨_, _, ⟨rfl, rfl⟩, r, Z, ha, _, _, ⟨rfl, rfl⟩, _, _, rfl, rs', Y', has, h⟩
    refine ⟨r, Z, rs', ha, ?_⟩
    cases r <;> obtain ⟨rfl, rfl⟩ := h.pure <;> exact ⟨has, .refl _⟩
  · rintro ⟨r, Z, rs', ha, has, rfl⟩
    refine ⟨X, X, ⟨.refl _, .refl _⟩, r, Z, ha, Z, Z, ⟨.refl _, .refl _⟩, (), _, .refl _, rs', Y, has, ?_⟩
    cases r <;> exact ends_pure.mpr ⟨.refl _, .refl _⟩

/-- Attempts leave nothing behind. -/
lemma eq_of_ends_attempts (h : (attempts attempt as).Ends X rs Y) : X = Y := by
  induction as generalizing rs with
  | nil => exact (h.pure).2
  | cons a as ih =>
    obtain ⟨r, Z, rs', -, h, -⟩ := ends_attempts_cons.mp h
    exact ih h

/-- Attempts that all fail give nothing. -/
lemma ends_attempts_append (hmiss : ∀ a ∈ as, ∃ Z, (attempt a).Ends X none Z)
    (hbs : (attempts attempt bs).Ends X rs Y) : (attempts attempt (as ++ bs)).Ends X rs Y := by
  induction as with
  | nil => exact hbs
  | cons a as ih =>
    obtain ⟨Z, ha⟩ := hmiss a List.mem_cons_self
    exact ends_attempts_cons.mpr ⟨_, _, rs, ha, ih fun a' ha' => hmiss a' (List.mem_cons_of_mem a ha'), .refl _⟩

/-- Attempts of which one succeeds. -/
lemma ends_attempts_of_only {b : β} (ha : (attempt a).Ends X (some b) Z)
    (hmiss : ∀ a' ∈ as ++ bs, ∃ Z, (attempt a').Ends X none Z) :
    (attempts attempt (as ++ a :: bs)).Ends X [(b, Z)] X := by
  have hbs : (attempts attempt bs).Ends X [] X := by
    have hnil : (attempts attempt ([] : List α)).Ends X [] X := ends_pure.mpr ⟨.refl _, .refl _⟩
    have := ends_attempts_append (fun a' ha' => hmiss a' (List.mem_append_right as ha')) hnil
    rwa [List.append_nil] at this
  exact ends_attempts_append (fun a' ha' => hmiss a' (List.mem_append_left bs ha'))
    (ends_attempts_cons.mpr ⟨_, _, [], ha, hbs, .refl _⟩)

lemma not_fails_attempts (h : ∀ a X, ¬ (attempt a).Fails X e) : ¬ (attempts attempt as).Fails X e := by
  induction as generalizing X with
  | nil => exact not_fails_pure
  | cons a as ih =>
    simp only [attempts, fails_bind, not_fails_situation, h, not_fails_goTo, ih, false_or]
    rintro ⟨_, _, -, result, _, -, _, _, -, _, _, -, _, _, -, h⟩
    cases result <;> exact not_fails_pure h

end Attempts

/-! ## Candidates of the highest priority -/

namespace Candidate

lemma le_hypothesisPriority (p : UInt32) : p ≤ hypothesisPriority := by
  rw [UInt32.le_iff_toNat_le]
  have := p.toNat_lt
  have htop : hypothesisPriority.toNat = 4294967295 := by decide
  omega

/-- Next to a candidate of the highest priority, the best ones are those of that priority. -/
lemma best_cons {c : Candidate} (hc : c.priority = hypothesisPriority) :
    best (c :: cs) = c :: cs.filter fun d => d.priority = hypothesisPriority := by
  have htop (d : Candidate) :
      ((c :: cs).all fun d' => Decidable.decide (d'.priority ≤ d.priority)) =
        Decidable.decide (d.priority = hypothesisPriority) := by
    rw [Bool.eq_iff_iff, List.all_eq_true]
    simp only [decide_eq_true_eq, List.forall_mem_cons, hc]
    constructor
    · rintro ⟨hle, -⟩
      exact UInt32.le_antisymm (le_hypothesisPriority _) hle
    · intro hd
      rw [hd]
      exact ⟨le_hypothesisPriority _, fun d' _ => le_hypothesisPriority d'.priority⟩
  simp only [best, htop]
  rw [List.filter_cons_of_pos (by simp [hc])]

end Candidate

/-! ## Hypotheses -/

variable {E : Elaborator} {Γ : Context} {c : Name} {type : Term} {X Y : Situation} {h : Local} {ν : Metas}

/-- The hypothesis has a type of the class that unifies with the given one, by the solutions `ν`. -/
def FitsClass (E : Elaborator) (Γ : Context) (c : Name) (type : Term) (X : Situation) (h : Local) (ν : Metas) : Prop :=
  ∃ ls, (X.metas.instantiate h.type).head = .const c ls ∧
    (E.unify Γ (X.metas.instantiate h.type) type).Ends X true ⟨X.supply, ν⟩

/-- The hypothesis has a type that is not of the class or does not unify with the given one. -/
def MissesClass (E : Elaborator) (Γ : Context) (c : Name) (type : Term) (X : Situation) (h : Local) : Prop :=
  (∀ ls, (X.metas.instantiate h.type).head ≠ .const c ls) ∨
    ∃ ν, (E.unify Γ (X.metas.instantiate h.type) type).Ends X false ⟨X.supply, ν⟩

lemma FitsClass.ends_applyHypothesis (hfits : E.FitsClass Γ c type X h ν) :
    (E.applyHypothesis Γ c type h).Ends X (some h.term) ⟨X.supply, ν⟩ := by
  obtain ⟨ls, hhead, hunify⟩ := hfits
  simp only [applyHypothesis, ends_bind, ends_instantiate]
  refine ⟨_, X, ⟨.refl _, .refl _⟩, ?_⟩
  simp only [hhead, ne_eq, not_true_eq_false, if_false, ends_bind]
  exact ⟨true, _, hunify, ends_pure.mpr ⟨.refl _, .refl _⟩⟩

lemma MissesClass.ends_applyHypothesis (hmisses : E.MissesClass Γ c type X h) :
    ∃ ν, (E.applyHypothesis Γ c type h).Ends X none ⟨X.supply, ν⟩ := by
  simp only [applyHypothesis, ends_bind, ends_instantiate]
  by_cases hhead : ∃ ls, (X.metas.instantiate h.type).head = .const c ls
  · obtain ⟨ls, hhead⟩ := hhead
    obtain ⟨ν, hunify⟩ := hmisses.resolve_left fun hnot => hnot ls hhead
    refine ⟨ν, _, X, ⟨.refl _, .refl _⟩, ?_⟩
    simp only [hhead, ne_eq, not_true_eq_false, if_false, ends_bind]
    exact ⟨false, _, hunify, ends_pure.mpr ⟨.refl _, .refl _⟩⟩
  · refine ⟨X.metas, _, X, ⟨.refl _, .refl _⟩, ?_⟩
    split
    · rename_i c' ls hc'
      have hne : c' ≠ c := fun heq => hhead ⟨ls, heq ▸ hc'⟩
      rw [if_pos hne]
      exact ends_pure.mpr ⟨.refl _, .refl _⟩
    · exact ends_pure.mpr ⟨.refl _, .refl _⟩

/-! ## Registered instances -/

section Instances

variable {resolve : Context → Term → ElabM Term} {e : Failure}

lemma not_fails_unify {a b : Term} : ¬ (E.unify Γ a b).Fails X e := by
  simp only [unify, fails_bind, not_fails_getSupply, not_fails_get, fails_lift,
    FreshM.not_fails_ofOption, not_fails_set, not_fails_pure, and_false, exists_false, or_false, not_false_eq_true]

lemma not_fails_newHole {t : Term} : ¬ (newHole Γ t).Fails X e := by
  rw [newHole, fails_bind]
  rintro (h | ⟨_, _, -, h⟩)
  · exact FreshM.not_fails_modifyGet (fails_lift.mp h)
  · exact not_fails_pure h

lemma not_fails_openInstance {m : Term} : ¬ (E.openInstance Γ fuel m type).Fails X e := by
  induction fuel generalizing m type X with
  | zero => exact not_fails_exhausted
  | succ fuel ih =>
    simp only [openInstance, whnf, fails_bind, not_fails_get, fails_lift, FreshM.not_fails_ofOption,
      and_false, exists_false, false_or]
    rintro ⟨t, Z, -, h⟩
    split at h
    · simp only [fails_bind, not_fails_newHole, not_fails_get, ih, not_fails_pure, and_false,
        exists_false, or_false] at h
    · exact not_fails_pure h

/-- A subgoal that cannot be solved is not a failure. -/
lemma not_fails_solveSubgoals {subgoals : List (Term × Term)} : ¬ (E.solveSubgoals resolve Γ subgoals).Fails X e := by
  induction subgoals generalizing X with
  | nil => exact not_fails_pure
  | cons subgoal rest ih =>
    simp only [solveSubgoals, instantiate, fails_bind, not_fails_get, not_fails_pure, and_false, exists_false, false_or]
    rintro ⟨t', Z, -, h | ⟨found, W, -, h⟩⟩
    · exact not_fails_tryCatch (fun _ => not_fails_pure) h
    · cases found with
      | none => exact not_fails_pure h
      | some m =>
        obtain ⟨solved, V, -, h⟩ := (fails_bind.mp h).resolve_left not_fails_unify
        cases solved with
        | true => exact ih h
        | false => exact not_fails_pure h

lemma not_fails_applyInstance {i : Instance} : ¬ (E.applyInstance resolve Γ type i).Fails X e := by
  unfold applyInstance
  split
  · rw [fails_bind]
    rintro (h | ⟨levels, Z, -, h⟩)
    · obtain ⟨_, _, _, h⟩ := of_fails_mapM h
      exact FreshM.not_fails_modifyGet (fails_lift.mp h)
    · obtain ⟨opened, W, -, h⟩ := (fails_bind.mp h).resolve_left not_fails_openInstance
      obtain ⟨solved, V, -, h⟩ := (fails_bind.mp h).resolve_left not_fails_unify
      split at h
      · exact not_fails_pure h
      · obtain ⟨solved', V', -, h⟩ := (fails_bind.mp h).resolve_left not_fails_solveSubgoals
        split at h <;> exact not_fails_pure h
  · exact not_fails_pure

end Instances

/-! ## One step of the search -/

/-- The hypotheses that fit a class type, each with the situation it leads to. -/
def fittingHypotheses (E : Elaborator) (Γ : Context) (c : Name) (type : Term) :
    ElabM (List ((Local × Term) × Situation)) :=
  attempts (fun h => return (← E.applyHypothesis Γ c type h).map (h, ·)) Γ.locals.reverse

/-- The registered instances that fit a class type, each with the situation it leads to. -/
def fittingInstances (E : Elaborator) (depth : Nat) (Γ : Context) (c : Name) (type : Term) :
    ElabM (List ((Instance × Term) × Situation)) :=
  attempts (fun i => return (← E.applyInstance (E.resolve depth) Γ type i).map (i, ·)) (E.env.instancesOf c)

/-- A hypothesis as a candidate. -/
def Candidate.ofHypothesis (r : (Local × Term) × Situation) : Candidate :=
  ⟨hypothesisPriority, r.1.1.name, r.1.2, r.2⟩

/-- A registered instance as a candidate. -/
def Candidate.ofInstance (r : (Instance × Term) × Situation) : Candidate :=
  ⟨r.1.1.priority, r.1.1.name, r.1.2, r.2⟩

/-- The only best candidate. -/
def choose (Γ : Context) (type : Term) (candidates : List Candidate) : ElabM Term :=
  match Candidate.best candidates with
  | [] => fail Γ (.instanceNotFound type)
  | [c] => do
    goTo c.situation
    instantiate c.term
  | cs => fail Γ (.ambiguousInstance type (cs.map Candidate.name))

/-- A class type is searched among the hypotheses and the registered instances of the class. -/
lemma resolve_succ {ls : List Level} (htype : type.head = .const c ls) :
    E.resolve (depth + 1) Γ type = (do
      let hypotheses ← E.fittingHypotheses Γ c type
      let instances ← E.fittingInstances depth Γ c type
      choose Γ type (hypotheses.map Candidate.ofHypothesis ++ instances.map Candidate.ofInstance)) := by
  simp only [resolve, htype]
  exact Eq.refl _

lemma choose_only {c : Candidate} (h : Candidate.best candidates = [c]) :
    (choose Γ type candidates).Ends X (c.situation.metas.instantiate c.term) c.situation := by
  simp only [choose, h, ends_bind, ends_instantiate]
  exact ⟨(), _, .refl _, .refl _, .refl _⟩

lemma choose_ambiguous {c c' : Candidate} (h : Candidate.best candidates = c :: c' :: cs) :
    (choose Γ type candidates).Fails X
      (.elaboration ⟨.ambiguousInstance type ((c :: c' :: cs).map Candidate.name), Γ⟩) := by
  simp only [choose, h, fail, fails_throw]

lemma mem_instancesOf_of_fitting {rs : List ((Instance × Term) × Situation)}
    (h : (E.fittingInstances depth Γ c type).Ends X rs Y) : ∀ r ∈ rs, r.1.1 ∈ E.env.instancesOf c := by
  unfold fittingInstances at h
  generalize E.env.instancesOf c = is at h
  induction is generalizing X rs with
  | nil =>
    obtain ⟨rfl, -⟩ := h.pure
    exact List.forall_mem_nil _
  | cons i is ih =>
    obtain ⟨r, Z, rs', hi, hrest, rfl⟩ := ends_attempts_cons.mp h
    obtain ⟨m, W, -, hm⟩ := hi.bind
    obtain ⟨rfl, -⟩ := hm.pure
    have hrest := fun r hr => List.mem_cons_of_mem i (ih hrest r hr)
    cases m with
    | none => exact hrest
    | some m => exact List.forall_mem_cons.mpr ⟨List.mem_cons_self, hrest⟩

lemma not_fails_fittingInstances : ¬ (E.fittingInstances depth Γ c type).Fails X e := by
  refine not_fails_attempts fun i X => ?_
  simp only [fails_bind, not_fails_applyInstance, not_fails_pure, and_false, exists_false, or_false, not_false_eq_true]

lemma ends_fittingHypotheses {before after : List Local} (hΓ : Γ.locals = before ++ h :: after)
    (hfits : E.FitsClass Γ c type X h ν) (hothers : ∀ x ∈ before ++ after, E.MissesClass Γ c type X x) :
    (E.fittingHypotheses Γ c type).Ends X [((h, h.term), ⟨X.supply, ν⟩)] X := by
  have hlocals : Γ.locals.reverse = after.reverse ++ h :: before.reverse := by simp [hΓ]
  rw [fittingHypotheses, hlocals]
  refine ends_attempts_of_only ?_ fun x hx => ?_
  · exact ends_bind.mpr ⟨_, _, hfits.ends_applyHypothesis, ends_pure.mpr ⟨.refl _, .refl _⟩⟩
  · obtain ⟨ν', hν'⟩ := (hothers x (by simp_all [or_comm])).ends_applyHypothesis
    exact ⟨_, ends_bind.mpr ⟨_, _, hν', ends_pure.mpr ⟨.refl _, .refl _⟩⟩⟩

/-- A hypothesis that alone fits a class type is found, with the solutions it needs, unless the search among the
registered instances has no answer, or some that fit have the priority of hypotheses: then it is ambiguous. -/
theorem resolve_only_hypothesis {depth : Nat} {ls : List Level} {before after : List Local}
    (htype : type.head = .const c ls) (hΓ : Γ.locals = before ++ h :: after)
    (hfits : E.FitsClass Γ c type X h ν) (hothers : ∀ x ∈ before ++ after, E.MissesClass Γ c type X x) :
    (E.fittingInstances depth Γ c type).Exhausts X ∧ (E.resolve (depth + 1) Γ type).Exhausts X ∨
    ∃ rs Y, (E.fittingInstances depth Γ c type).Ends X rs Y ∧ (∀ r ∈ rs, r.1.1 ∈ E.env.instancesOf c) ∧
      ((∀ r ∈ rs, r.1.1.priority ≠ Candidate.hypothesisPriority) →
        (E.resolve (depth + 1) Γ type).Ends X h.term ⟨Y.supply, ν⟩) ∧
      ((∃ r ∈ rs, r.1.1.priority = Candidate.hypothesisPriority) →
        (E.resolve (depth + 1) Γ type).Fails X (.elaboration ⟨.ambiguousInstance type (h.name ::
          (rs.filter fun r => r.1.1.priority = Candidate.hypothesisPriority).map (·.1.1.name)), Γ⟩)) := by
  have hhypotheses := ends_fittingHypotheses hΓ hfits hothers
  rw [resolve_succ htype]
  rcases ElabM.exhausts_or_fails_or_ends (E.fittingInstances depth Γ c type) X with hno | ⟨e, hfails⟩ | ⟨rs, Y, hrs⟩
  · exact .inl ⟨hno, .of_ends_bind hhypotheses (hno.bind _)⟩
  · exact absurd hfails not_fails_fittingInstances
  obtain rfl := eq_of_ends_attempts hrs
  -- the best candidates are the hypothesis and the instances of its priority
  let candidate := Candidate.ofHypothesis ((h, h.term), ⟨X.supply, ν⟩)
  have hbest : Candidate.best (candidate :: rs.map Candidate.ofInstance) = candidate ::
      (rs.filter fun r => r.1.1.priority = Candidate.hypothesisPriority).map Candidate.ofInstance := by
    rw [Candidate.best_cons (.refl _), List.filter_map]
    exact Eq.refl _
  have hfound (hrs' : ∀ r ∈ rs, r.1.1.priority ≠ Candidate.hypothesisPriority) :
      (choose Γ type (candidate :: rs.map Candidate.ofInstance)).Ends X h.term ⟨X.supply, ν⟩ := by
    have hties : (rs.filter fun r => r.1.1.priority = Candidate.hypothesisPriority) = [] := by simpa using hrs'
    rw [hties] at hbest
    have hends : (choose Γ type (candidate :: rs.map Candidate.ofInstance)).Ends X (ν.instantiate h.term)
      ⟨X.supply, ν⟩ := choose_only hbest
    rwa [ν.instantiate_finished (m := h.term) (P := fun _ => True) (k := 0) trivial] at hends
  refine .inr ⟨rs, X, hrs, mem_instancesOf_of_fitting hrs, fun hrs' => ?_, ?_⟩
  · exact ElabM.ends_bind.mpr ⟨_, _, hhypotheses, ElabM.ends_bind.mpr ⟨_, _, hrs, hfound hrs'⟩⟩
  · rintro ⟨r, hr, htop⟩
    refine ElabM.fails_bind.mpr (.inr ⟨_, _, hhypotheses, ElabM.fails_bind.mpr (.inr ⟨_, _, hrs, ?_⟩)⟩)
    have hmem : r ∈ rs.filter fun r => r.1.1.priority = Candidate.hypothesisPriority := by simp [hr, htop]
    obtain ⟨r', ties, hties⟩ := List.exists_cons_of_ne_nil (List.ne_nil_of_mem hmem)
    rw [hties] at hbest ⊢
    have hfails : (choose Γ type (candidate :: rs.map Candidate.ofInstance)).Fails X _ := choose_ambiguous hbest
    simpa [Function.comp_def, candidate, Candidate.ofHypothesis, Candidate.ofInstance] using hfails

/-- The hypothesis `h` and the instance `i` of the highest priority, both of class `C`. -/
theorem tied_instance_ambiguous :
    let C : Term := .const ⟨"C"⟩ []
    let i : Decl := ⟨⟨"i"⟩, [], C, .postulate⟩
    let env : Env := { decls := [i], instances := [(⟨"C"⟩, ⟨i.name, 4294967295⟩)] }
    let E : Elaborator := { env, fuel := 3 }
    let h : Local := .new 0 ⟨"h"⟩ C
    let X : Situation := ⟨⟨1, []⟩, {}⟩
    E.FitsClass ⟨[h]⟩ ⟨"C"⟩ C X h {} ∧
      (E.resolve 9 ⟨[h]⟩ C).Fails X (.elaboration ⟨.ambiguousInstance C [h.name, i.name], ⟨[h]⟩⟩) := by
  intro C i env E h X
  have hfits : E.FitsClass ⟨[h]⟩ ⟨"C"⟩ C X h {} := ⟨[], by decide, by unfold ElabM.Ends FreshM.Ends Fueled.Yields; cbv⟩
  have hrun : (E.fittingInstances 8 ⟨[h]⟩ ⟨"C"⟩ C).Ends X
      [((⟨i.name, 4294967295⟩, .const i.name []), X)] X := by
    unfold ElabM.Ends FreshM.Ends Fueled.Yields; cbv
  refine ⟨hfits, ?_⟩
  rcases @resolve_only_hypothesis E ⟨[h]⟩ ⟨"C"⟩ C X h {} 8 [] [] [] (.refl _) (.refl _) hfits (List.forall_mem_nil _)
    with ⟨hno, -⟩ | ⟨rs, Y, hrs, -, -, hties⟩
  · exact absurd hrun hno.not_ends
  · obtain ⟨rfl, -⟩ := hrun.unique hrs
    exact hties ⟨_, List.mem_cons_self, by decide⟩

end Elaborator

end ProofAssistant
