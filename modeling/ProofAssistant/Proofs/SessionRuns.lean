import ProofAssistant.Proofs.Invariants
import ProofAssistant.Session

/-!
# Runs of sessions

A command that fails may have done part of its work, and what it has done stays done. `SessionM.Ends x σ r σ'`
says that `x` leads from the session `σ` to `σ'` with the result `r`, an answer or a failure, and
`SessionM.Keeps I x P` that `x` preserves a property of sessions in both cases, where `P` holds of the answer.

As for elaboration there is one rule for each way of combining computations.
-/

namespace ProofAssistant

variable {f : Session → Session} {r : Except Failure Unit}

namespace SessionM

variable {ε ε' α β : Type} {σ σ' : Session}

/-- The computation ends with a result, from one session in another. -/
def Ends (x : SessionM ε α) (σ : Session) (r : Except ε α) (σ' : Session) : Prop :=
  x.run.run σ = some (r, σ')

/-- What becomes of a run can be read off it. -/
lemma exists_ends_of_run {x : SessionM ε α} {f : Except ε α × Session → β} {b : β}
    (h : (x.run.run σ).map f = some b) : ∃ r σ', Ends x σ r σ' ∧ f (r, σ') = b := by
  obtain ⟨⟨r, σ'⟩, hrun, hf⟩ := Option.map_eq_some_iff.mp h
  exact ⟨r, σ', hrun, hf⟩

lemma exists_ends_ok_of_run {x : SessionM ε α} {f : Session → β} {b : β}
    (h : (x.run.run σ).map (fun p => (p.1.isOk, f p.2)) = some (true, b)) : ∃ a σ', Ends x σ (.ok a) σ' ∧ f σ' = b := by
  obtain ⟨r, σ', hends, hr⟩ := exists_ends_of_run h
  obtain ⟨hok, hf⟩ := Prod.mk.inj hr
  cases r with
  | ok a => exact ⟨a, σ', hends, hf⟩
  | error e => exact nomatch hok

@[simp] lemma ends_pure {a : α} {r : Except ε α} : Ends (pure a : SessionM ε α) σ r σ' ↔ .ok a = r ∧ σ = σ' := by
  simp [Ends]

@[simp] lemma ends_throw {e : ε} {r : Except ε α} : Ends (throw e : SessionM ε α) σ r σ' ↔ .error e = r ∧ σ = σ' := by
  simp [Ends]

/-- A computation in two steps answers if both do, and fails if one of them does. -/
lemma ends_bind {x : SessionM ε α} {f : α → SessionM ε β} {r : Except ε β} :
    Ends (x >>= f) σ r σ' ↔ (∃ a τ, Ends x σ (.ok a) τ ∧ Ends (f a) τ r σ') ∨
      ∃ e, .error e = r ∧ Ends x σ (.error e) σ' := by
  have hrun : (x >>= f).run.run σ = (x.run.run σ).bind fun p =>
      match p.1 with
      | .ok a => (f a).run.run p.2
      | .error e => some (.error e, p.2) := by
    simp only [ExceptT.run_bind, StateT.run_bind]
    congr 1
    funext ⟨r, τ⟩
    cases r <;> rfl
  rw [Ends, hrun]
  rcases hx : x.run.run σ with _ | ⟨e | a, τ⟩ <;> simp [Ends, hx]

@[simp] lemma ends_bind_ok {x : SessionM ε α} {f : α → SessionM ε β} {b : β} :
    Ends (x >>= f) σ (.ok b) σ' ↔ ∃ a τ, Ends x σ (.ok a) τ ∧ Ends (f a) τ (.ok b) σ' := by
  simp [ends_bind]

lemma ends_get {r : Except ε Session} : Ends (getThe Session : SessionM ε Session) σ r σ' ↔ .ok σ = r ∧ σ = σ' := by
  show (some (Except.ok σ, σ) : Option (Except ε Session × Session)) = some (r, σ') ↔ _
  simp

lemma ends_modify {r : Except ε PUnit} :
    Ends (modifyThe Session f : SessionM ε PUnit) σ r σ' ↔ .ok ⟨⟩ = r ∧ f σ = σ' := by
  show (some (Except.ok ⟨⟩, f σ) : Option (Except ε PUnit × Session)) = some (r, σ') ↔ _
  simp

/-- Elaboration uses up identities if it ends, and changes nothing if it fails. -/
lemma ends_ofFresh {x : FreshM α} {r : Except Failure α} : Ends (ofFresh x) σ r σ' ↔
      (∃ a s, .ok a = r ∧ FreshM.Ends x σ.supply a s ∧ { σ with supply := s } = σ') ∨
      ∃ e, .error e = r ∧ (x.run σ.supply).run = some (.error e) ∧ σ = σ' := by
  unfold Ends FreshM.Ends Fueled.Yields
  rcases hx : (x.run σ.supply).run with _ | e | ⟨a, s⟩
  · have hrun : (ofFresh x).run.run σ = none := by
      show Option.bind _ _ = _
      rw [hx]
      rfl
    simp [hrun]
  · have hrun : (ofFresh x).run.run σ = some (.error e, σ) := by
      show Option.bind _ _ = _
      rw [hx]
      rfl
    simp [hrun]
  · have hrun : (ofFresh x).run.run σ = some (.ok a, { σ with supply := s }) := by
      show Option.bind _ _ = _
      rw [hx]
      rfl
    simp [hrun]

lemma ends_ofFresh_ok {x : FreshM α} {a : α} :
    Ends (ofFresh x) σ (.ok a) σ' ↔ ∃ s, FreshM.Ends x σ.supply a s ∧ { σ with supply := s } = σ' := by
  simp [ends_ofFresh]

lemma ends_adapt {x : SessionM ε α} {f : ε → ε'} {r : Except ε' α} :
    Ends (x.adapt f) σ r σ' ↔ ∃ r', Ends x σ r' σ' ∧ r'.mapError f = r := by
  have hrun : (x.adapt f).run.run σ = (x.run.run σ).map fun p => (p.1.mapError f, p.2) := by
    show Option.bind (x.run.run σ) _ = _
    cases x.run.run σ <;> rfl
  unfold Ends
  rw [hrun]
  rcases hx : x.run.run σ with _ | ⟨r, τ⟩ <;> simp [and_comm]

/-! ## What runs preserve -/

variable {I : Session → Prop} {P Q : α → Prop} {R : β → Prop}

/-- The computation keeps the property of sessions, whether it ends with an answer or fails. An answer
satisfies `P`. -/
def Keeps (I : Session → Prop) (x : SessionM ε α) (P : α → Prop) : Prop :=
  ∀ σ, I σ → ∀ r σ', Ends x σ r σ' → I σ' ∧ ∀ a, r = .ok a → P a

namespace Keeps

lemma mono {x : SessionM ε α} (h : Keeps I x P) (hPQ : ∀ a, P a → Q a) : Keeps I x Q :=
  fun σ hσ r σ' hx => ⟨(h σ hσ r σ' hx).1, fun a ha => hPQ a ((h σ hσ r σ' hx).2 a ha)⟩

lemma pure {a : α} (h : P a) : Keeps I (pure a : SessionM ε α) P := by
  intro σ hσ r σ' hx
  obtain ⟨rfl, rfl⟩ := ends_pure.mp hx
  exact ⟨hσ, fun b hb => Except.ok.inj hb ▸ h⟩

lemma throw (e : ε) : Keeps I (throw e : SessionM ε α) P := by
  intro σ hσ r σ' hx
  obtain ⟨rfl, rfl⟩ := ends_throw.mp hx
  exact ⟨hσ, fun _ h => nomatch h⟩

lemma bind {x : SessionM ε α} {f : α → SessionM ε β} (hx : Keeps I x P)
    (hf : ∀ a, P a → Keeps I (f a) R) : Keeps I (x >>= f) R := by
  intro σ hσ r σ' h
  rcases ends_bind.mp h with ⟨a, τ, ha, hr⟩ | ⟨e, rfl, he⟩
  · obtain ⟨hτ, hP⟩ := hx σ hσ _ τ ha
    exact hf a (hP a rfl) τ hτ r σ' hr
  · exact ⟨(hx σ hσ _ σ' he).1, fun _ h => nomatch h⟩

lemma get : Keeps I (getThe Session : SessionM ε Session) I := by
  intro σ hσ r σ' h
  obtain ⟨rfl, rfl⟩ := ends_get.mp h
  exact ⟨hσ, fun a ha => Except.ok.inj ha ▸ hσ⟩

lemma modify (hf : ∀ σ, I σ → I (f σ)) :
    Keeps I (modifyThe Session f : SessionM ε PUnit) fun _ => True := by
  intro σ hσ r σ' h
  obtain ⟨rfl, rfl⟩ := ends_modify.mp h
  exact ⟨hf σ hσ, fun _ _ => trivial⟩

/-- A run that ends with an answer is to leave identities with which the session still has the property. -/
lemma ofFresh {x : FreshM α} (hx : ∀ σ, I σ → ∀ a s, FreshM.Ends x σ.supply a s →
    I { σ with supply := s } ∧ P a) : Keeps I (ofFresh x) P := by
  intro σ hσ r σ' h
  rcases ends_ofFresh.mp h with ⟨a, s, rfl, ha, rfl⟩ | ⟨e, rfl, -, rfl⟩
  · obtain ⟨hσ', hP⟩ := hx σ hσ a s ha
    exact ⟨hσ', fun b hb => Except.ok.inj hb ▸ hP⟩
  · exact ⟨hσ, fun _ h => nomatch h⟩

lemma adapt {x : SessionM ε α} (hx : Keeps I x P) (f : ε → ε') : Keeps I (x.adapt f : SessionM ε' α) P := by
  intro σ hσ r σ' h
  obtain ⟨r', hr', rfl⟩ := ends_adapt.mp h
  obtain ⟨hσ', hP⟩ := hx σ hσ r' σ' hr'
  cases r' with
  | ok a => exact ⟨hσ', fun b hb => hP b (congrArg Except.ok (Except.ok.inj hb))⟩
  | error e => exact ⟨hσ', fun _ h => nomatch h⟩

lemma mapM {f : α → SessionM ε β} {as : List α} (hf : ∀ a ∈ as, Keeps I (f a) R) :
    Keeps I (as.mapM f) fun bs => ∀ b ∈ bs, R b := by
  induction as with
  | nil => exact pure (by simp)
  | cons a as ih =>
    rw [List.forall_mem_cons] at hf
    rw [List.mapM_cons]
    exact hf.1.bind fun b hb => (ih hf.2).bind fun bs hbs => pure (List.forall_mem_cons.mpr ⟨hb, hbs⟩)

lemma forM {f : α → SessionM ε PUnit} {as : List α} (hf : ∀ a ∈ as, Keeps I (f a) fun _ => True) :
    Keeps I (as.forM f) fun _ => True := by
  induction as with
  | nil => exact pure trivial
  | cons a as ih =>
    rw [List.forall_mem_cons] at hf
    exact hf.1.bind fun _ _ => ih hf.2

/-- A loop over a list that never ends early. -/
lemma forIn {f : α → PUnit → SessionM ε (ForInStep PUnit)} {as : List α}
    (hf : ∀ a ∈ as, ∀ u, Keeps I (f a u) fun _ => True) : Keeps I (forIn as PUnit.unit f) fun _ => True := by
  induction as with
  | nil => exact pure trivial
  | cons a as ih =>
    rw [List.forall_mem_cons] at hf
    rw [List.forIn_cons]
    refine (hf.1 _).bind fun step _ => ?_
    cases step with
    | done u => exact pure trivial
    | yield u => exact ih hf.2

end Keeps

/-! ## Steps of sessions -/

/-- An extension is checked with the next number. It takes the place of the environment, unless it is
rejected. -/
lemma of_ends_extend {extension : (env : Env) → (fuel next : Nat) → Fueled TypeError Env}
    (h : Ends (extend extension) σ r σ') :
    (∃ env, .ok () = r ∧ (extension σ.env Session.fuel σ.supply.next).Yields env ∧ { σ with env } = σ') ∨
      (∃ e, .error e = r) ∧ σ = σ' := by
  rcases ends_bind.mp h with ⟨s, τ, hs, h⟩ | ⟨e, rfl, he⟩
  · obtain ⟨heq, rfl⟩ := ends_get.mp hs
    obtain rfl := Except.ok.inj heq
    rcases ends_bind.mp h with ⟨env, τ, hτ, h⟩ | ⟨e, rfl, he⟩
    · obtain ⟨s, hyields, rfl⟩ := ends_ofFresh_ok.mp hτ
      obtain ⟨henv, rfl⟩ := FreshM.ends_ofTyping.mp hyields
      obtain ⟨rfl, rfl⟩ := ends_modify.mp h
      exact .inl ⟨env, rfl, henv, rfl⟩
    · rcases ends_ofFresh.mp he with ⟨_, _, heq, -, -⟩ | ⟨_, -, -, rfl⟩
      · simp at heq
      · exact .inr ⟨⟨e, rfl⟩, rfl⟩
  · exact nomatch (ends_get.mp he).1

/-- Extending the environment keeps what the extension keeps. -/
lemma Keeps.extend {extension : (env : Env) → (fuel next : Nat) → Fueled TypeError Env}
    (h : ∀ σ, I σ → ∀ env, (extension σ.env Session.fuel σ.supply.next).Yields env → I { σ with env }) :
    Keeps I (extend extension) fun _ => True := by
  intro σ hσ r σ' hx
  refine ⟨?_, fun _ _ => trivial⟩
  rcases of_ends_extend hx with ⟨env, -, henv, rfl⟩ | ⟨-, rfl⟩
  · exact h σ hσ env henv
  · exact hσ

end SessionM

end ProofAssistant
