import ProofAssistant.Proofs.Invariants

/-!
# How computations fail

`Fails` is the counterpart of `Fueled.Yields` and of `Ends`: the computation ends with the given error. A
computation in steps fails in one of them, and the steps before that have ended with answers.
-/

namespace ProofAssistant

open ElabM Env Option List

variable {α β : Type}
variable {e' : Failure} {μ : Metas} {c : Prop} {s : Supply}

namespace Fueled

variable {ε : Type}

/-- The computation ends with the error `e`. -/
def Fails (x : Fueled ε α) (e : ε) : Prop :=
  x.run = some (.error e)

@[simp] lemma not_fails_pure {a : α} {e : ε} : ¬ (pure a : Fueled ε α).Fails e := by
  simp [Fails, ExceptT.run, pure, ExceptT.pure, ExceptT.mk]

@[simp] lemma fails_bind {x : Fueled ε α} {f : α → Fueled ε β} {e : ε} :
    (x >>= f).Fails e ↔ x.Fails e ∨ ∃ a, x.Yields a ∧ (f a).Fails e := by
  rcases x with _ | _ | a <;>
    simp [Fails, Yields, ExceptT.run, bind, ExceptT.bind, ExceptT.mk, ExceptT.bindCont]

@[simp] lemma fails_throw {e e' : ε} : (throw e : Fueled ε α).Fails e' ↔ e = e' := by
  simp [Fails, ExceptT.run, throw, throwThe, MonadExceptOf.throw, ExceptT.mk]

@[simp] lemma not_fails_exhausted {e : ε} : ¬ (exhausted : Fueled ε α).Fails e := by
  simp [Fails, exhausted, ExceptT.run, ExceptT.mk]

@[simp] lemma not_fails_ofOption {o : Option α} {e : ε} : ¬ (ofOption o : Fueled ε α).Fails e := by
  cases o <;> simp [Fails, ofOption, ExceptT.run, ExceptT.mk]

end Fueled

namespace FreshM

variable {s s' : Supply} {e : Failure}

/-- The computation fails from the supply of identities. -/
def Fails (x : FreshM α) (s : Supply) (e : Failure) : Prop :=
  Fueled.Fails (x.run s) e

@[simp] lemma not_fails_pure {a : α} : ¬ Fails (pure a) s e := by
  simp [Fails]

@[simp] lemma fails_bind {x : FreshM α} {f : α → FreshM β} :
    Fails (x >>= f) s e ↔ Fails x s e ∨ ∃ a s', Ends x s a s' ∧ Fails (f a) s' e := by
  simp only [Fails, Ends, StateT.run_bind, Fueled.fails_bind, Prod.exists]

@[simp] lemma fails_map {x : FreshM α} {f : α → β} : Fails (f <$> x) s e ↔ Fails x s e := by
  rw [map_eq_pure_bind, fails_bind]
  simp only [not_fails_pure, and_false, exists_false, or_false]

@[simp] lemma fails_throw : Fails (throw e : FreshM α) s e' ↔ e = e' := by
  simp [Fails]

@[simp] lemma not_fails_get : ¬ Fails get s e := by
  simp [Fails]

@[simp] lemma not_fails_modifyGet {f : Supply → α × Supply} : ¬ Fails (modifyGet f) s e :=
  Fueled.not_fails_pure

@[simp] lemma not_fails_exhausted : ¬ Fails (exhausted : FreshM α) s e := by
  simp [Fails, Fueled.Fails, exhausted, StateT.run, ExceptT.run, ExceptT.mk]

@[simp] lemma not_fails_ofOption {o : Option α} : ¬ Fails (ofOption o) s e := by
  cases o <;> simp [Fails, Fueled.Fails, ofOption, StateT.run, ExceptT.run, ExceptT.mk]

lemma not_fails_tryCatch {x : FreshM α} {f : Failure → FreshM α} (hf : ∀ e', ¬ Fails (f e') s e) :
    ¬ Fails (tryCatch x f) s e := by
  have hrun : (MonadExcept.tryCatch x f : FreshM α).run s =
      MonadExcept.tryCatch (x.run s) fun e => (f e).run s := rfl
  rw [Fails, hrun]
  rcases hx : x.run s with _ | e' | r
  · simp [Fueled.Fails, MonadExcept.tryCatch, tryCatchThe, MonadExceptOf.tryCatch, ExceptT.tryCatch,
      ExceptT.run, ExceptT.mk]
  · exact hf e'
  · exact Fueled.not_fails_pure

lemma fails_adapt {ε : Type} {x : Fueled ε α} {f : ε → Failure} :
    Fails (fun s => (x.adapt f).map fun a => (a, s)) s e ↔ ∃ e', x.Fails e' ∧ f e' = e := by
  rcases x with _ | e₁ | b
  · show (none : Option (Except Failure (α × Supply))) = some (.error e) ↔
      ∃ e', (none : Option (Except ε α)) = some (.error e') ∧ f e' = e
    simp
  · show (some (.error (f e₁)) : Option (Except Failure (α × Supply))) = some (.error e) ↔
      ∃ e', (some (.error e₁) : Option (Except ε α)) = some (.error e') ∧ f e' = e
    simp
  · show (some (.ok (b, s)) : Option (Except Failure (α × Supply))) = some (.error e) ↔
      ∃ e', (some (.ok b) : Option (Except ε α)) = some (.error e') ∧ f e' = e
    simp

@[simp] lemma fails_ofTyping {x : Fueled TypeError α} : Fails (ofTyping x) s e ↔ ∃ e', x.Fails e' ∧ .type e' = e :=
  fails_adapt

@[simp] lemma fails_ofElaboration {x : Fueled ElabError α} :
    Fails (ofElaboration x) s e ↔ ∃ e', x.Fails e' ∧ .elaboration e' = e :=
  fails_adapt

end FreshM

namespace ElabM

variable {X : Situation} {e : Failure}
variable {Y Z : Situation}

/-- The computation fails from the situation. -/
def Fails (x : ElabM α) (X : Situation) (e : Failure) : Prop :=
  FreshM.Fails (x.run X.metas) X.supply e

@[simp] lemma not_fails_pure {a : α} : ¬ Fails (pure a) X e :=
  FreshM.not_fails_pure

@[simp] lemma fails_bind {x : ElabM α} {f : α → ElabM β} :
    Fails (x >>= f) X e ↔ Fails x X e ∨ ∃ a Z, Ends x X a Z ∧ Fails (f a) Z e := by
  simp only [Fails, StateT.run_bind, FreshM.fails_bind, Prod.exists]
  refine or_congr_right ⟨?_, ?_⟩
  · rintro ⟨a, μ, s, hx, hf⟩
    exact ⟨a, ⟨s, μ⟩, hx, hf⟩
  · rintro ⟨a, Z, hx, hf⟩
    exact ⟨a, Z.metas, Z.supply, hx, hf⟩

@[simp] lemma fails_throw : Fails (throw e : ElabM α) X e' ↔ e = e' :=
  FreshM.fails_throw

@[simp] lemma not_fails_exhausted : ¬ Fails (exhausted : ElabM α) X e :=
  FreshM.not_fails_exhausted

@[simp] lemma not_fails_get : ¬ Fails get X e :=
  FreshM.not_fails_pure

@[simp] lemma not_fails_getSupply : ¬ Fails (getThe Supply) X e :=
  FreshM.not_fails_pure

@[simp] lemma not_fails_modify {f : Metas → Metas} : ¬ Fails (modify f) X e :=
  FreshM.not_fails_pure

@[simp] lemma not_fails_set : ¬ Fails (set μ) X e :=
  FreshM.not_fails_pure

@[simp] lemma not_fails_situation : ¬ Fails situation X e :=
  FreshM.not_fails_pure

@[simp] lemma not_fails_goTo {Z : Situation} : ¬ Fails (goTo Z) X e :=
  FreshM.not_fails_pure

/-- A computation that is recovered from fails only in the recovery. -/
lemma not_fails_tryCatch {x : ElabM α} {f : Failure → ElabM α} (hf : ∀ e', ¬ Fails (f e') X e) :
    ¬ Fails (tryCatch x f) X e :=
  FreshM.not_fails_tryCatch hf

@[simp] lemma fails_lift {x : FreshM α} : Fails (liftM x) X e ↔ FreshM.Fails x X.supply e := by
  change FreshM.Fails (x >>= fun a => pure (a, X.metas)) X.supply e ↔ _
  simp only [FreshM.fails_bind, FreshM.not_fails_pure, and_false, exists_false, or_false]

/-- The computation gives no answer. -/
def Exhausts (x : ElabM α) (X : Situation) : Prop :=
  ((x.run X.metas).run X.supply).run = none

lemma exhausts_or_fails_or_ends (x : ElabM α) (X : Situation) :
    Exhausts x X ∨ (∃ e, Fails x X e) ∨ ∃ a Y, Ends x X a Y := by
  unfold Exhausts Fails Ends FreshM.Fails FreshM.Ends Fueled.Fails Fueled.Yields
  rcases ((x.run X.metas).run X.supply).run with _ | e | ⟨⟨a, μ⟩, s⟩
  · exact .inl rfl
  · exact .inr (.inl ⟨e, rfl⟩)
  · exact .inr (.inr ⟨a, ⟨s, μ⟩, rfl⟩)

lemma Exhausts.not_ends {x : ElabM α} (h : Exhausts x X) {a : α} : ¬ Ends x X a Y := by
  intro hends
  exact some_ne_none _ (hends.symm.trans h)

lemma Ends.unique {x : ElabM α} {a a' : α} {Y' : Situation} (h : Ends x X a Y) (h' : Ends x X a' Y') :
    a = a' ∧ Y = Y' := by
  have heq := Except.ok.inj (some.inj (h.symm.trans h'))
  simp only [Prod.mk.injEq] at heq
  exact ⟨heq.1.1, congrArg₂ Situation.mk heq.2 heq.1.2⟩

/-- What comes after a step that ends decides how the computation ends. -/
lemma ends_bind_of_ends {x : ElabM α} {f : α → ElabM β} {a : α} {b : β} (hx : Ends x X a Z) :
    Ends (x >>= f) X b Y ↔ Ends (f a) Z b Y := by
  rw [ends_bind]
  constructor
  · rintro ⟨a', Z', hx', hf⟩
    obtain ⟨rfl, rfl⟩ := hx.unique hx'
    exact hf
  · exact fun hf => ⟨a, Z, hx, hf⟩

lemma Ends.not_fails {x : ElabM α} {a : α} (h : Ends x X a Y) : ¬ Fails x X e := by
  intro hfails
  simpa using some.inj (h.symm.trans hfails)

lemma fails_bind_of_ends {x : ElabM α} {f : α → ElabM β} {a : α} (hx : Ends x X a Z) :
    Fails (x >>= f) X e ↔ Fails (f a) Z e := by
  rw [fails_bind]
  constructor
  · rintro (h | ⟨a', Z', hx', hf⟩)
    · exact absurd h hx.not_fails
    · obtain ⟨rfl, rfl⟩ := hx.unique hx'
      exact hf
  · exact fun hf => .inr ⟨a, Z, hx, hf⟩

lemma Exhausts.bind {x : ElabM α} (h : Exhausts x X) (f : α → ElabM β) : Exhausts (x >>= f) X := by
  unfold Exhausts at *
  simp only [StateT.run_bind, ExceptT.run_bind, h]
  rfl

/-- A computation in steps gives no answer if what comes after the first step does not. -/
lemma Exhausts.of_ends_bind {x : ElabM α} {f : α → ElabM β} {a : α} (hx : Ends x X a Z) (h : Exhausts (f a) Z) :
    Exhausts (x >>= f) X := by
  unfold Exhausts at *
  unfold Ends FreshM.Ends Fueled.Yields at hx
  simp only [StateT.run_bind, ExceptT.run_bind, hx]
  exact h

lemma of_fails_guard [Decidable c] {x : ElabM Unit} {f : Unit → ElabM α}
    (hx : ∀ u Z, ¬ Ends x X u Z) (h : Fails (if c then x >>= f else f ()) X e) :
    Fails x X e ∨ Fails (f ()) X e := by
  split at h
  · exact (fails_bind.mp h).imp_right fun ⟨u, Z, hxZ, _⟩ => absurd hxZ (hx u Z)
  · exact .inr h

lemma of_fails_ite_bind [Decidable c] {x y : ElabM β} {f : β → ElabM α}
    (h : Fails (if c then x >>= f else y >>= f) X e) :
    Fails x X e ∨ Fails y X e ∨ ∃ b Z, Fails (f b) Z e := by
  split at h
  · rcases fails_bind.mp h with h | ⟨b, Z, -, h⟩
    · exact .inl h
    · exact .inr (.inr ⟨b, Z, h⟩)
  · rcases fails_bind.mp h with h | ⟨b, Z, -, h⟩
    · exact .inr (.inl h)
    · exact .inr (.inr ⟨b, Z, h⟩)

lemma of_fails_mapM {f : α → ElabM β} {as : List α} (h : Fails (as.mapM f) X e) : ∃ a ∈ as, ∃ Z, Fails (f a) Z e := by
  induction as generalizing X with
  | nil => exact absurd h not_fails_pure
  | cons a as ih =>
    rw [mapM_cons] at h
    simp only [fails_bind, not_fails_pure, and_false, exists_false, or_false] at h
    rcases h with h | ⟨_, Z, -, h⟩
    · exact ⟨a, mem_cons_self, X, h⟩
    · obtain ⟨a', ha', h⟩ := ih h
      exact ⟨a', mem_cons_of_mem a ha', h⟩

end ElabM

/-! ## Holes that were not determined -/

/-- The failure is that a hole could not be determined. -/
def Failure.Undetermined (e : Failure) (g : Goal) : Prop :=
  ∃ Γ, e = .elaboration ⟨.unresolvedHole g, Γ⟩

lemma Env.cause_of_typeOf {env : Env} {g : Goal} (fuel : Nat) :
    (∀ next Γ m e, (env.typeOf s μ fuel next Γ m).Fails e → e.cause ≠ .unresolvedHole g) ∧
      ∀ next Γ m e, (env.sortOf s μ fuel next Γ m).Fails e → e.cause ≠ .unresolvedHole g := by
  induction fuel with
  | zero => simp [typeOf, sortOf]
  | succ fuel ih =>
    refine ⟨fun next Γ m e h => ?_, fun next Γ m e h => ?_⟩
    · cases m with
      | app f a =>
        simp only [typeOf, Fueled.fails_bind, Fueled.not_fails_ofOption, false_or] at h
        rcases h with h | ⟨_, -, _, -, h⟩
        · exact ih.1 next Γ f e h
        · split at h
          · simp at h
          · simp [← Fueled.fails_throw.mp h]
      | lam x t b =>
        simp only [typeOf, Fueled.fails_bind, Fueled.not_fails_pure, and_false, exists_false, or_false] at h
        exact ih.1 _ _ _ e h
      | pi x i t b =>
        simp only [typeOf, Fueled.fails_bind, Fueled.not_fails_pure, and_false, exists_false, or_false] at h
        rcases h with h | ⟨_, -, h⟩
        · exact ih.2 _ _ _ e h
        · exact ih.2 _ _ _ e h
      | sort l => simp [typeOf] at h
      | var i => simp [typeOf] at h; simp [← h]
      | free x | const c ls | ctor t i c ls | hole z d =>
        simp only [typeOf] at h
        split at h
        · simp at h
        · simp [← Fueled.fails_throw.mp h]
    · simp only [sortOf, Fueled.fails_bind, Fueled.not_fails_ofOption, false_or] at h
      rcases h with h | ⟨_, -, _, -, h⟩
      · exact ih.1 next Γ m e h
      · split at h
        · simp at h
        · simp [← Fueled.fails_throw.mp h]

namespace Elaborator

variable {E : Elaborator} {X : Situation} {Γ : Context} {e : Failure} {g : Goal}
variable {m : Term}

lemma not_undetermined_of_sortOf (h : (E.sortOf Γ m).Fails X e) : ¬ e.Undetermined g := by
  simp only [Elaborator.sortOf, fails_bind, not_fails_getSupply, not_fails_get, false_or,
    fails_lift, FreshM.fails_ofElaboration] at h
  obtain ⟨_, _, -, _, _, -, e', h, rfl⟩ := h
  rintro ⟨Γ', hΓ'⟩
  have hcause := (cause_of_typeOf (g := g) E.fuel).2 _ _ _ _ h
  obtain rfl := Failure.elaboration.inj hΓ'
  exact hcause (Eq.refl _)

lemma not_undetermined_of_fail {cause : ElabError.Cause} (h : (fail Γ cause : ElabM α).Fails X e)
    (hcause : cause ≠ .unresolvedHole g) : ¬ e.Undetermined g := by
  obtain rfl := fails_throw.mp h
  rintro ⟨Γ', hΓ'⟩
  exact hcause (congrArg ElabError.cause (Failure.elaboration.inj hΓ'))

lemma not_undetermined_of_fillDeferred {obligations : List Goal} (h : (E.fillDeferred m obligations).Fails X e) :
    ¬ e.Undetermined g := by
  unfold fillDeferred at h
  split at h
  · rcases fails_bind.mp h with h | ⟨_, _, h, -⟩
    · exact not_undetermined_of_fail h (by simp)
    · exact absurd h not_ends_throw
  · simp only [fails_bind, not_fails_pure, and_false, exists_false, or_false] at h
    obtain ⟨g', -, Z, h⟩ := of_fails_mapM h
    simp only [fails_bind, not_fails_get, not_fails_pure, and_false, exists_false, or_false, false_or] at h
    obtain ⟨_, _, -, h⟩ := h
    exact not_undetermined_of_sortOf h

/-- Where no hole waits for an instance there is nothing to resolve. -/
lemma resolvePending_of_nil (h : X.metas.pending = []) :
    (E.resolvePending true).run X.metas = pure ((), X.metas) := by
  obtain ⟨s, holes, levels, pending⟩ := X
  obtain rfl : pending = [] := h
  rfl

/-- A term cannot be finished for a hole only if that hole is open in it or in its type. -/
lemma mem_openGoals_of_finish {type : Term} (hpending : X.metas.pending = []) (h : (E.finish Γ m type).Fails X e)
    (he : e.Undetermined g) : g ∈ X.metas.openGoals X.supply (X.metas.instantiate m) ++
      X.metas.openGoals X.supply (X.metas.instantiate type) := by
  rcases fails_bind.mp h with h | ⟨_, Z, hresolve, h⟩
  · rw [ElabM.Fails, resolvePending_of_nil hpending] at h
    exact absurd h FreshM.not_fails_pure
  rw [ElabM.Ends, resolvePending_of_nil hpending] at hresolve
  obtain ⟨hmetas, hsupply⟩ := hresolve.pure
  obtain ⟨-, hmetas⟩ := Prod.mk.inj hmetas
  obtain rfl : X = Z := congrArg₂ Situation.mk hsupply hmetas
  obtain ⟨_, _, hget, h⟩ := (fails_bind.mp h).resolve_left not_fails_get
  obtain ⟨rfl, rfl⟩ := ends_get.mp hget
  obtain ⟨_, _, hget, h⟩ := (fails_bind.mp h).resolve_left not_fails_getSupply
  obtain ⟨rfl, rfl⟩ := ends_getSupply.mp hget
  dsimp only at h
  split at h
  · rename_i g' hg'
    rcases fails_bind.mp h with h | ⟨_, _, h, -⟩
    · obtain rfl := fails_throw.mp h
      obtain ⟨Γ', hΓ'⟩ := he
      have hcause := congrArg ElabError.cause (Failure.elaboration.inj hΓ')
      obtain rfl := ElabError.Cause.unresolvedHole.inj hcause
      exact mem_of_head? hg'
    · exact absurd h not_ends_throw
  · -- all that comes after is about other things
    rcases of_fails_guard (fun _ _ => not_ends_exhausted) h with h | h
    · exact absurd h not_fails_exhausted
    rcases of_fails_guard (fun _ _ => not_ends_throw) h with h | h
    · exact absurd he (not_undetermined_of_fail h (by simp))
    rcases of_fails_ite_bind h with h | h | ⟨m', Z, h⟩
    · exact absurd h not_fails_pure
    · exact absurd he (not_undetermined_of_fillDeferred h)
    rcases of_fails_guard (fun _ _ => not_ends_throw) h with h | h
    · exact absurd he (not_undetermined_of_fail h (by simp))
    simp only [fails_bind, fails_lift, unusedNumber, FreshM.next, FreshM.fails_bind,
      FreshM.not_fails_get, FreshM.not_fails_pure, FreshM.fails_ofTyping, not_fails_pure, and_false,
      exists_false, or_false, false_or] at h
    obtain ⟨_, _, -, e', -, rfl⟩ := h
    obtain ⟨Γ', hΓ'⟩ := he
    simp at hΓ'

lemma mem_openGoals_of_qed {p : ProofState} (hdone : p.isDone = true)
    (hpending : p.metas.pending = []) (h : (E.qed p).Fails s e) (he : e.Undetermined g) :
    g ∈ p.metas.openGoals s (p.metas.instantiate p.proof) ++
      p.metas.openGoals s (p.metas.instantiate p.root.target) := by
  have hfinish : ((E.finish p.root.context p.proof p.root.target).run' p.metas).Fails s e := by
    simpa [qed, hdone] using h
  exact mem_openGoals_of_finish (X := ⟨s, p.metas⟩) hpending (FreshM.fails_map.mp hfinish) he

end Elaborator

end ProofAssistant
