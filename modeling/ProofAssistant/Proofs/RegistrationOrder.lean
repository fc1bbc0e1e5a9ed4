import ProofAssistant.Proofs.RewriteMatches

/-!
# The order of registration

A search for an instance tries all candidates, each from the same situation, and chooses by priority. So it does not
matter in which order instances were registered (`Elaborator.resolve_reordered`). Reduction, inference and unification
do not look at instances, so an instance is applied alike in both environments if the search for its own arguments,
which is less deep, comes to the same.
-/

namespace ProofAssistant

/-- The environment with other instances. -/
def Env.withInstances (env : Env) (is : List (Name × Instance)) : Env :=
  { env with instances := is }

namespace Env

variable (env : Env) (is : List (Name × Instance)) (s : Supply) (μ : Metas) (fuel : Nat)

lemma whnfCore_whnf_withInstances :
    (env.withInstances is).whnfCore fuel = env.whnfCore fuel ∧ (env.withInstances is).whnf fuel = env.whnf fuel := by
  induction fuel with
  | zero => exact ⟨rfl, rfl⟩
  | succ fuel ih =>
    obtain ⟨hcore, hwhnf⟩ := ih
    constructor
    · simp only [whnfCore, hcore, hwhnf]
      rfl
    · simp only [whnf, hcore, hwhnf]
      rfl

@[simp] lemma whnfOf_withInstances : (env.withInstances is).whnfOf μ fuel = env.whnfOf μ fuel := by
  funext m
  simp only [whnfOf, (env.whnfCore_whnf_withInstances is fuel).2]

lemma typeOf_sortOf_withInstances : (env.withInstances is).typeOf s μ fuel = env.typeOf s μ fuel ∧
      (env.withInstances is).sortOf s μ fuel = env.sortOf s μ fuel := by
  induction fuel with
  | zero => exact ⟨rfl, rfl⟩
  | succ fuel ih =>
    obtain ⟨htype, hsort⟩ := ih
    constructor <;> funext next Γ m
    · cases m <;> simp only [typeOf, htype, hsort, whnfOf_withInstances] <;> rfl
    · simp only [sortOf, htype, whnfOf_withInstances]

lemma openArguments_withInstances (count : Nat) :
    (env.withInstances is).openArguments μ fuel count = env.openArguments μ fuel count := by
  induction count with
  | zero => rfl
  | succ count ih =>
    simp only [openArguments, whnfOf_withInstances, ih]

lemma unify_solve_withInstances : (env.withInstances is).unify s fuel = env.unify s fuel ∧
      (env.withInstances is).unifyCore s fuel = env.unifyCore s fuel ∧
      (env.withInstances is).unifySpines s fuel = env.unifySpines s fuel ∧
      (env.withInstances is).solve? s fuel = env.solve? s fuel := by
  induction fuel with
  | zero => refine ⟨?_, ?_, ?_, ?_⟩ <;> funext next Γ a b <;> simp only [unify, unifyCore, unifySpines, solve?]
  | succ fuel ih =>
    obtain ⟨hunify, hcore, hspines, hsolve⟩ := ih
    refine ⟨?_, ?_, ?_, ?_⟩ <;> funext next Γ a b
    · simp only [unify, hunify, hcore, hsolve, (env.whnfCore_whnf_withInstances is fuel).1]
    · cases a <;> cases b <;> simp only [unifyCore, hunify, hspines] <;> rfl
    · simp only [unifySpines, hunify]
    · simp only [solve?, hunify, openArguments_withInstances, (env.typeOf_sortOf_withInstances is s _ fuel).1]

end Env

/-- The same failure, but that candidates may come in another order. -/
inductive Failure.Reordered : Failure → Failure → Prop
  | refl (e : Failure) : Reordered e e
  | ambiguous {type : Term} {candidates candidates' : List Name} {Γ : Context} : candidates.Perm candidates' →
      Reordered (.elaboration ⟨.ambiguousInstance type candidates, Γ⟩)
        (.elaboration ⟨.ambiguousInstance type candidates', Γ⟩)

/-- Both computations give no answer, or both fail and for the same reason, or they end with the same answer in the
same situation. -/
def ElabM.Agree {α : Type} (x y : ElabM α) (X : Situation) : Prop :=
  x.Exhausts X ∧ y.Exhausts X ∨ (∃ e e', x.Fails X e ∧ y.Fails X e' ∧ e.Reordered e') ∨
    ∃ a Y, x.Ends X a Y ∧ y.Ends X a Y

/-- After steps that end alike, the rest decides. -/
lemma ElabM.Agree.of_ends_bind {α β : Type} {x y : ElabM α} {f g : α → ElabM β} {a b : α} {X Z : Situation}
    (hx : x.Ends X a Z) (hy : y.Ends X b Z) (h : (f a).Agree (g b) Z) : (x >>= f).Agree (y >>= g) X := by
  rcases h with ⟨hf, hg⟩ | ⟨e, e', hf, hg, he⟩ | ⟨c, Y, hf, hg⟩
  · exact .inl ⟨.of_ends_bind hx hf, .of_ends_bind hy hg⟩
  · exact .inr (.inl ⟨e, e', (fails_bind_of_ends hx).mpr hf, (fails_bind_of_ends hy).mpr hg, he⟩)
  · exact .inr (.inr ⟨c, Y, (ends_bind_of_ends hx).mpr hf, (ends_bind_of_ends hy).mpr hg⟩)

/-- Whoever does not look at the reason of a failure sees no difference. -/
lemma ElabM.Agree.recover {α : Type} {x y : ElabM α} (h : ∀ X, Agree x y X) :
    (tryCatch (some <$> x) fun _ => pure none : ElabM (Option α)) = tryCatch (some <$> y) fun _ => pure none := by
  funext μ s
  have hrun (x : ElabM α) : (tryCatch (some <$> x) fun _ => pure none : ElabM (Option α)) μ s =
      match x μ s with
      | none => none
      | some (.error _) => some (.ok ((none, μ), s))
      | some (.ok ((a, μ'), s')) => some (.ok ((some a, μ'), s')) := by
    show Option.bind (Option.bind (x μ s) _) _ = _
    rcases x μ s with _ | e | ⟨⟨a, μ'⟩, s'⟩ <;> rfl
  rw [hrun, hrun]
  rcases h ⟨s, μ⟩ with ⟨hx, hy⟩ | ⟨e, e', hx, hy, -⟩ | ⟨a, Y, hx, hy⟩
  · rw [show x μ s = none from hx, show y μ s = none from hy]
  · rw [show x μ s = some (.error e) from hx, show y μ s = some (.error e') from hy]
  · rw [show x μ s = some (.ok ((a, Y.metas), Y.supply)) from hx,
      show y μ s = some (.ok ((a, Y.metas), Y.supply)) from hy]

namespace Elaborator

/-- The elaborator with other instances. -/
def withInstances (E : Elaborator) (is : List (Name × Instance)) : Elaborator :=
  { E with env := E.env.withInstances is }

variable {E : Elaborator} {is : List (Name × Instance)} {Γ : Context} {type : Term} {X Y : Situation}

lemma unify_withInstances : (E.withInstances is).unify = E.unify := by
  funext Γ a b
  simp only [unify, withInstances, (E.env.unify_solve_withInstances is _ E.fuel).1]

lemma openInstance_withInstances (fuel : Nat) : (E.withInstances is).openInstance Γ fuel = E.openInstance Γ fuel := by
  induction fuel with
  | zero => rfl
  | succ fuel ih =>
    have hwhnf (t : Term) : (E.withInstances is).whnf t = E.whnf t := by
      simp only [whnf, withInstances, Env.whnfOf_withInstances]
    simp only [openInstance, hwhnf, ih]
    rfl

lemma applyHypothesis_withInstances : (E.withInstances is).applyHypothesis = E.applyHypothesis := by
  funext Γ c type h
  simp only [applyHypothesis, unify_withInstances]

/-- Instances are applied alike where the searches for their arguments agree. -/
lemma applyInstance_withInstances {resolve resolve' : Context → Term → ElabM Term}
    (h : ∀ Γ t X, (resolve Γ t).Agree (resolve' Γ t) X) :
    (E.withInstances is).applyInstance resolve' = E.applyInstance resolve := by
  have hsolve (Γ : Context) (subgoals : List (Term × Term)) :
      (E.withInstances is).solveSubgoals resolve' Γ subgoals = E.solveSubgoals resolve Γ subgoals := by
    induction subgoals with
    | nil => rfl
    | cons subgoal rest ih =>
      simp only [solveSubgoals, unify_withInstances, ih, ElabM.Agree.recover (h Γ _)]
  funext Γ type i
  simp only [applyInstance, unify_withInstances, openInstance_withInstances, hsolve]
  rfl

/-! ## Attempts and candidates -/

/-- Attempts in another order have the same results, in another order. -/
lemma ends_attempts_of_perm {α β : Type} {attempt : α → ElabM (Option β)} {as bs : List α} (h : as.Perm bs)
    {rs : List (β × Situation)} (has : (attempts attempt as).Ends X rs X) :
    ∃ rs', (attempts attempt bs).Ends X rs' X ∧ rs.Perm rs' := by
  induction h generalizing rs with
  | nil => exact ⟨rs, has, .refl rs⟩
  | cons a _ ih =>
    obtain ⟨r, Z, rs₁, ha, has₁, rfl⟩ := ends_attempts_cons.mp has
    obtain ⟨rs₂, hbs, hperm⟩ := ih has₁
    exact ⟨_, ends_attempts_cons.mpr ⟨r, Z, rs₂, ha, hbs, Eq.refl _⟩, hperm.append_left _⟩
  | swap a b as =>
    obtain ⟨r, Z, _, hb, has₁, rfl⟩ := ends_attempts_cons.mp has
    obtain ⟨r', Z', rs₁, ha, has₂, rfl⟩ := ends_attempts_cons.mp has₁
    have hbs := ends_attempts_cons.mpr ⟨r, Z, rs₁, hb, has₂, Eq.refl _⟩
    refine ⟨_, ends_attempts_cons.mpr ⟨r', Z', _, ha, hbs, Eq.refl _⟩, ?_⟩
    rw [← List.append_assoc, ← List.append_assoc]
    exact List.perm_append_comm.append_right rs₁
  | trans _ _ ih ih' =>
    obtain ⟨rs₁, hbs, hperm⟩ := ih has
    obtain ⟨rs₂, hcs, hperm'⟩ := ih' hbs
    exact ⟨rs₂, hcs, hperm.trans hperm'⟩

lemma Candidate.best_perm {cs cs' : List Candidate} (h : cs.Perm cs') : (best cs).Perm (best cs') := by
  have hall : (fun c : Candidate => cs.all fun d => Decidable.decide (d.priority ≤ c.priority)) =
      fun c => cs'.all fun d => Decidable.decide (d.priority ≤ c.priority) := by
    funext c
    exact h.all_eq
  unfold best
  rw [hall]
  exact h.filter _

/-- Candidates in another order lead to the same choice. -/
lemma agree_choose {cs cs' : List Candidate} (h : cs.Perm cs') : (choose Γ type cs).Agree (choose Γ type cs') X := by
  have hbest := Candidate.best_perm h
  rcases hcs : Candidate.best cs with _ | ⟨c, _ | ⟨c', rest⟩⟩
  · rw [hcs] at hbest
    have hfails {cs : List Candidate} (h : Candidate.best cs = []) :
        (choose Γ type cs).Fails X (.elaboration ⟨.instanceNotFound type, Γ⟩) := by
      simp only [choose, h, ElabM.fail, ElabM.fails_throw]
    exact .inr (.inl ⟨_, _, hfails hcs, hfails hbest.symm.eq_nil, .refl _⟩)
  · rw [hcs] at hbest
    exact .inr (.inr ⟨_, _, choose_only hcs, choose_only (List.perm_singleton.mp hbest.symm)⟩)
  · have hlength := hbest.length_eq
    rcases hcs' : Candidate.best cs' with _ | ⟨d, _ | ⟨d', rest'⟩⟩
    · simp [hcs, hcs'] at hlength
    · simp [hcs, hcs'] at hlength
    · rw [hcs, hcs'] at hbest
      exact .inr (.inl ⟨_, _, choose_ambiguous hcs, choose_ambiguous hcs', .ambiguous (hbest.map Candidate.name)⟩)

/-- The instances that fit are the same up to order. -/
lemma fittingInstances_reordered {depth : Nat} {c : Name}
    (hperm : (E.env.instancesOf c).Perm ((E.env.withInstances is).instancesOf c))
    (h : ∀ Γ t X, (E.resolve depth Γ t).Agree ((E.withInstances is).resolve depth Γ t) X) :
    (E.fittingInstances depth Γ c type).Exhausts X ∧ ((E.withInstances is).fittingInstances depth Γ c type).Exhausts X ∨
      ∃ rs rs', (E.fittingInstances depth Γ c type).Ends X rs X ∧
        ((E.withInstances is).fittingInstances depth Γ c type).Ends X rs' X ∧ rs.Perm rs' := by
  have hsame : (E.withInstances is).fittingInstances depth Γ c type =
      attempts (fun i => return (← E.applyInstance (E.resolve depth) Γ type i).map (i, ·))
        ((E.env.withInstances is).instancesOf c) := by
    rw [fittingInstances, applyInstance_withInstances h]
    exact Eq.refl _
  rcases ElabM.exhausts_or_fails_or_ends (E.fittingInstances depth Γ c type) X with hno | ⟨e, hfails⟩ | ⟨rs, Y, hrs⟩
  · rcases ElabM.exhausts_or_fails_or_ends ((E.withInstances is).fittingInstances depth Γ c type) X
      with hno' | ⟨e, hfails⟩ | ⟨rs, Y, hrs⟩
    · exact .inl ⟨hno, hno'⟩
    · exact absurd hfails not_fails_fittingInstances
    · obtain rfl := eq_of_ends_attempts hrs
      rw [hsame] at hrs
      obtain ⟨rs', hrs', -⟩ := ends_attempts_of_perm hperm.symm hrs
      exact absurd hrs' hno.not_ends
  · exact absurd hfails not_fails_fittingInstances
  · obtain rfl := eq_of_ends_attempts hrs
    rw [hsame]
    obtain ⟨rs', hrs', hrsperm⟩ := ends_attempts_of_perm hperm hrs
    exact .inr ⟨rs, rs', hrs, hrs', hrsperm⟩

lemma fails_resolve_of_head {depth : Nat} (htype : ¬ ∃ c ls, type.head = .const c ls) :
    (E.resolve (depth + 1) Γ type).Fails X (.elaboration ⟨.instanceNotFound type, Γ⟩) := by
  rw [resolve]
  split
  · rename_i c ls hc
    exact absurd ⟨c, ls, hc⟩ htype
  · exact ElabM.fails_throw.mpr (Eq.refl _)

/-- Where the instances of every class are the same up to order, so is what is found for a class type. -/
theorem resolve_reordered (hperm : ∀ c, (E.env.instancesOf c).Perm ((E.env.withInstances is).instancesOf c))
    (depth : Nat) (Γ : Context) (type : Term) (X : Situation) :
    (E.resolve depth Γ type).Agree ((E.withInstances is).resolve depth Γ type) X := by
  induction depth generalizing Γ type X with
  | zero => exact .inr (.inl ⟨_, _, ElabM.fails_throw.mpr (Eq.refl _), ElabM.fails_throw.mpr (Eq.refl _), .refl _⟩)
  | succ depth ih =>
    by_cases htype : ∃ c ls, type.head = .const c ls
    on_goal 2 => exact .inr (.inl ⟨_, _, fails_resolve_of_head htype, fails_resolve_of_head htype, .refl _⟩)
    obtain ⟨c, ls, htype⟩ := htype
    rw [resolve_succ htype, resolve_succ htype]
    have hhypotheses : (E.withInstances is).fittingHypotheses Γ c type = E.fittingHypotheses Γ c type := by
      simp only [fittingHypotheses, applyHypothesis_withInstances]
    rw [hhypotheses]
    rcases ElabM.exhausts_or_fails_or_ends (E.fittingHypotheses Γ c type) X with hno | ⟨e, hfails⟩ | ⟨hs, Y, hhs⟩
    · exact .inl ⟨hno.bind _, hno.bind _⟩
    · exact absurd hfails not_fails_fittingHypotheses
    rcases fittingInstances_reordered (hperm c) ih with ⟨hno, hno'⟩ | ⟨rs, rs', hrs, hrs', hrsperm⟩
    · exact .inl ⟨.of_ends_bind hhs (hno.bind _), .of_ends_bind hhs (hno'.bind _)⟩
    · refine .of_ends_bind hhs hhs (.of_ends_bind hrs hrs' (agree_choose ?_))
      exact (hrsperm.map Candidate.ofInstance).append_left _

/-- Two instances of one priority are ambiguous, in the order in which they were registered. -/
theorem tie_reordered :
    let C : Term := .const ⟨"C"⟩ []
    let i : Decl := ⟨⟨"i"⟩, [], C, .postulate⟩
    let j : Decl := ⟨⟨"j"⟩, [], C, .postulate⟩
    let is : List (Name × Instance) := [(⟨"C"⟩, ⟨i.name, 7⟩), (⟨"C"⟩, ⟨j.name, 7⟩)]
    let E : Elaborator := { env := { decls := [i, j], instances := is }, fuel := 3 }
    let X : Situation := ⟨{}, {}⟩
    (E.resolve 9 {} C).Fails X (.elaboration ⟨.ambiguousInstance C [i.name, j.name], {}⟩) ∧
      ((E.withInstances is.reverse).resolve 9 {} C).Fails X (.elaboration ⟨.ambiguousInstance C [j.name, i.name], {}⟩) ∧
      (E.resolve 9 {} C).Agree ((E.withInstances is.reverse).resolve 9 {} C) X := by
  intro C i j is E X
  refine ⟨?_, ?_, resolve_reordered (fun c => ?_) 9 {} C X⟩
  · unfold ElabM.Fails FreshM.Fails Fueled.Fails; cbv
  · unfold ElabM.Fails FreshM.Fails Fueled.Fails; cbv
  · exact ((List.reverse_perm is).symm.filter _).map _

end Elaborator

end ProofAssistant
