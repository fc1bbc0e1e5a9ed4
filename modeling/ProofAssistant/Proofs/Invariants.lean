import ProofAssistant.Elaboration
import ProofAssistant.Proofs.Answers

/-!
# Invariants of elaboration

An `Invariant` is a property of the identities handed out and of the solutions found. A computation keeps it, with a
postcondition `P`, if whenever it starts where the invariant holds and ends, the invariant holds again and its answer
satisfies `P`. There is one rule for each way of combining computations. A run that recovers from a failure goes on from
where the attempt began, so no rule asks anything of failures.
-/

namespace ProofAssistant

open List FreshM StateT

variable {f : Metas → Metas} {u : PUnit} {e : Failure} {c : Prop} {Z X : Situation}

/-- What holds of the identities handed out, and of the solutions found. -/
structure Invariant where
  supply : Supply → Prop
  metas : Metas → Prop

variable {I : Invariant} {α β : Type} {P Q : α → Prop} {R : β → Prop}

/-! ## Computations that hand out identities -/

namespace FreshM

variable {s s' : Supply}

/-- The computation ends with an answer, from one supply of identities in another. -/
def Ends (x : FreshM α) (s : Supply) (a : α) (s' : Supply) : Prop :=
  Fueled.Yields (x.run s) (a, s')

@[simp] lemma ends_pure {a b : α} : Ends (pure a) s b s' ↔ a = b ∧ s = s' := by
  simp [Ends]

@[simp] lemma ends_bind {x : FreshM α} {f : α → FreshM β} {s'' : Supply} {b : β} :
    Ends (x >>= f) s b s'' ↔ ∃ a s', Ends x s a s' ∧ Ends (f a) s' b s'' := by
  simp only [Ends, run_bind, Fueled.yields_bind, Prod.exists]

lemma Ends.pure {a b : α} (h : Ends (Pure.pure a) s b s') : a = b ∧ s = s' :=
  ends_pure.mp h

lemma Ends.bind {x : FreshM α} {f : α → FreshM β} {s'' : Supply} {b : β} (h : Ends (x >>= f) s b s'') :
    ∃ a s', Ends x s a s' ∧ Ends (f a) s' b s'' :=
  ends_bind.mp h

@[simp] lemma ends_map {x : FreshM α} {f : α → β} {b : β} : Ends (f <$> x) s b s' ↔ ∃ a, Ends x s a s' ∧ f a = b := by
  simp only [Ends, run_map, Fueled.yields_map, Prod.exists, Prod.mk.injEq]
  constructor
  · rintro ⟨a, _, ha, hab, rfl⟩
    exact ⟨a, ha, hab⟩
  · rintro ⟨a, ha, hab⟩
    exact ⟨a, s', ha, hab, rfl⟩

@[simp] lemma not_ends_throw {a : α} : ¬ Ends (throw e) s a s' := by
  simp [Ends]

@[simp] lemma not_ends_exhausted {a : α} : ¬ Ends exhausted s a s' := by
  simp [Ends, Fueled.Yields, exhausted, StateT.run, ExceptT.run, ExceptT.mk]

@[simp] lemma ends_get {t : Supply} : Ends get s t s' ↔ s = t ∧ s = s' := by
  simp [Ends]

@[simp] lemma ends_modifyGet {f : Supply → α × Supply} {a : α} : Ends (modifyGet f) s a s' ↔ f s = (a, s') :=
  Fueled.yields_pure

@[simp] lemma ends_ofOption {o : Option α} {a : α} : Ends (ofOption o) s a s' ↔ o = some a ∧ s = s' := by
  cases o <;> simp [Ends, Fueled.Yields, ofOption, StateT.run, ExceptT.run, ExceptT.mk]

/-- A computation without a supply leaves it as it is, whatever its failures are called. -/
lemma ends_adapt {ε : Type} {x : Fueled ε α} {f : ε → Failure} {a : α} :
    Ends (fun s => (x.adapt f).map fun a => (a, s)) s a s' ↔ x.Yields a ∧ s = s' := by
  rcases x with _ | e | b
  · show (none : Option (Except Failure (α × Supply))) = some (.ok (a, s')) ↔
      (none : Option (Except ε α)) = some (.ok a) ∧ s = s'
    simp
  · show some (Except.error (f e)) = some (.ok (a, s')) ↔ some (Except.error e) = some (.ok a) ∧ s = s'
    simp
  · show (some (.ok (b, s)) : Option (Except Failure (α × Supply))) = some (.ok (a, s')) ↔
      (some (.ok b) : Option (Except ε α)) = some (.ok a) ∧ s = s'
    simp

@[simp] lemma ends_ofTyping {x : Fueled TypeError α} {a : α} : Ends (ofTyping x) s a s' ↔ x.Yields a ∧ s = s' :=
  ends_adapt

@[simp] lemma ends_ofElaboration {x : Fueled ElabError α} {a : α} :
    Ends (ofElaboration x) s a s' ↔ x.Yields a ∧ s = s' :=
  ends_adapt

/-- A failed attempt leaves no trace: what follows it starts where it did. -/
lemma of_ends_tryCatch {x : FreshM α} {f : Failure → FreshM α} {a : α} (h : Ends (tryCatch x f) s a s') :
    Ends x s a s' ∨ ∃ e, Ends (f e) s a s' := by
  have hrun : (MonadExcept.tryCatch x f : FreshM α).run s =
      MonadExcept.tryCatch (x.run s) fun e => (f e).run s := rfl
  rw [Ends, hrun] at h
  rcases hx : x.run s with _ | e | r
  · simp [hx, Fueled.Yields, MonadExcept.tryCatch, tryCatchThe, MonadExceptOf.tryCatch, ExceptT.tryCatch,
      ExceptT.run, ExceptT.mk] at h
  · rw [hx] at h
    exact .inr ⟨e, h⟩
  · rw [hx] at h
    exact .inl (by rw [Ends, hx]; exact h)

/-- The computation keeps the invariant, and its answer satisfies `P`. -/
def Keeps (I : Invariant) (x : FreshM α) (P : α → Prop) : Prop :=
  ∀ s, I.supply s → ∀ a s', Ends x s a s' → I.supply s' ∧ P a

namespace Keeps

lemma mono {x : FreshM α} (h : Keeps I x P) (hPQ : ∀ a, P a → Q a) : Keeps I x Q :=
  fun s hs a s' hx => ⟨(h s hs a s' hx).1, hPQ a (h s hs a s' hx).2⟩

lemma pure {a : α} (h : P a) : Keeps I (pure a) P := by
  intro s hs b s' hx
  obtain ⟨rfl, rfl⟩ := hx.pure
  exact ⟨hs, h⟩

lemma bind {x : FreshM α} {f : α → FreshM β} (hx : Keeps I x P) (hf : ∀ a, P a → Keeps I (f a) R) :
    Keeps I (x >>= f) R := by
  intro s hs b s'' h
  obtain ⟨a, s', ha, hb⟩ := h.bind
  obtain ⟨hs', hP⟩ := hx s hs a s' ha
  exact hf a hP s' hs' b s'' hb

lemma throw (e : Failure) : Keeps I (throw e) P :=
  fun _ _ _ _ h => absurd h not_ends_throw

lemma ofOption {o : Option α} (h : ∀ a, o = some a → P a) : Keeps I (ofOption o) P := by
  intro s hs a s' hx
  obtain ⟨ha, rfl⟩ := ends_ofOption.mp hx
  exact ⟨hs, h a ha⟩

lemma ofTyping {x : Fueled TypeError α} (h : ∀ a, x.Yields a → P a) : Keeps I (ofTyping x) P := by
  intro s hs a s' hx
  obtain ⟨ha, rfl⟩ := ends_ofTyping.mp hx
  exact ⟨hs, h a ha⟩

lemma tryCatch {x : FreshM α} {f : Failure → FreshM α} (hx : Keeps I x P)
    (hf : ∀ e, Keeps I (f e) P) : Keeps I (tryCatch x f) P := by
  intro s hs a s' h
  rcases of_ends_tryCatch h with h | ⟨e, h⟩
  · exact hx s hs a s' h
  · exact hf e s hs a s' h

lemma next : Keeps I next fun _ => True :=
  bind (fun s hs _ _ h => by obtain ⟨-, rfl⟩ := ends_get.mp h; exact ⟨hs, trivial⟩)
    fun _ _ => pure trivial

end Keeps

end FreshM

/-! ## Unification -/

namespace SolveM

/-- The computation keeps the invariant, and its answer satisfies `P`. -/
def Keeps (I : Invariant) (x : SolveM α) (P : α → Prop) : Prop :=
  ∀ μ, I.metas μ → ∀ a μ', x.run μ = some (a, μ') → I.metas μ' ∧ P a

namespace Keeps

lemma pure {a : α} (h : P a) : Keeps I (pure a) P := by
  intro μ hμ b μ' hx
  obtain ⟨rfl, rfl⟩ : a = b ∧ μ = μ' := by simpa using hx
  exact ⟨hμ, h⟩

lemma bind {x : SolveM α} {f : α → SolveM β} (hx : Keeps I x P) (hf : ∀ a, P a → Keeps I (f a) R) :
    Keeps I (x >>= f) R := by
  intro μ hμ b μ'' h
  obtain ⟨⟨a, μ'⟩, ha, hb⟩ := Option.bind_eq_some_iff.mp h
  obtain ⟨hμ', hP⟩ := hx μ hμ a μ' ha
  exact hf a hP μ' hμ' b μ'' hb

lemma ite [Decidable c] {x y : SolveM α} (hx : c → Keeps I x P) (hy : ¬ c → Keeps I y P) :
    Keeps I (if c then x else y) P := by
  split
  · exact hx ‹_›
  · exact hy ‹_›

lemma failure : Keeps I (failure : SolveM α) P := by
  intro μ _ a μ' h
  exact absurd h (by simp)

/-- A step that finds no solutions. -/
lemma lift {x : Option α} (hx : ∀ a, x = some a → P a) : Keeps I (liftM x) P := by
  intro μ hμ a μ' h
  cases x with
  | none => exact absurd h (by simp)
  | some b =>
    obtain ⟨rfl, rfl⟩ : b = a ∧ μ = μ' := by simpa using h
    exact ⟨hμ, hx b rfl⟩

lemma get : Keeps I get I.metas := by
  intro μ hμ a μ' h
  obtain ⟨rfl, rfl⟩ : μ = a ∧ μ = μ' := by simpa using h
  exact ⟨hμ, hμ⟩

/-- What is read are the solutions from which the rest goes on. -/
lemma get_bind {f : Metas → SolveM α}
    (h : ∀ μ, I.metas μ → ∀ a μ', (f μ).run μ = some (a, μ') → I.metas μ' ∧ P a) : Keeps I (MonadState.get >>= f) P :=
  h

lemma set {μ : Metas} (hμ : I.metas μ) : Keeps I (set μ) fun _ => True := by
  intro _ _ a μ' h
  obtain rfl : μ = μ' := by simpa using h
  exact ⟨hμ, trivial⟩

lemma orRestore {x : SolveM Bool} (hx : Keeps I x fun _ => True) : Keeps I (orRestore x) fun _ => True := by
  refine get.bind fun μ hμ => hx.bind fun solved _ => ?_
  cases solved with
  | true => exact pure trivial
  | false => exact (set hμ).bind fun _ _ => pure trivial

lemma allPairs {test : α → α → SolveM Bool} {as bs : List α}
    (h : ∀ a ∈ as, ∀ b ∈ bs, Keeps I (test a b) fun _ => True) : Keeps I (Env.allPairs test as bs) fun _ => True := by
  fun_induction Env.allPairs test as bs with
  | case1 a as b bs ih =>
    refine (h a mem_cons_self b mem_cons_self).bind fun solved _ => ?_
    cases solved with
    | true => exact ih fun a' ha b' hb => h a' (mem_cons_of_mem a ha) b' (mem_cons_of_mem b hb)
    | false => exact pure trivial
  | case2 => exact pure trivial

end Keeps

end SolveM

/-! ## Computations that find solutions -/

namespace ElabM

variable {μ : Metas} {x : ElabM Unit}

/-- The computation ends with an answer, from one situation in another. -/
def Ends (x : ElabM α) (X : Situation) (a : α) (Y : Situation) : Prop :=
  FreshM.Ends (x.run X.metas) X.supply (a, Y.metas) Y.supply

section Ends

variable {X Y : Situation} {a : α}

@[simp] lemma ends_pure {b : α} : Ends (pure a) X b Y ↔ a = b ∧ X = Y := by
  obtain ⟨s, μ⟩ := X
  obtain ⟨s', μ'⟩ := Y
  simp [Ends, and_assoc, and_comm]

@[simp] lemma ends_bind {x : ElabM α} {f : α → ElabM β} {b : β} :
    Ends (x >>= f) X b Y ↔ ∃ a Z, Ends x X a Z ∧ Ends (f a) Z b Y := by
  simp only [Ends, StateT.run_bind, FreshM.ends_bind, Prod.exists]
  constructor
  · rintro ⟨a, μ, s, hx, hf⟩
    exact ⟨a, ⟨s, μ⟩, hx, hf⟩
  · rintro ⟨a, Z, hx, hf⟩
    exact ⟨a, Z.metas, Z.supply, hx, hf⟩

lemma Ends.pure {b : α} (h : Ends (Pure.pure a) X b Y) : a = b ∧ X = Y :=
  ends_pure.mp h

lemma Ends.bind {x : ElabM α} {f : α → ElabM β} {b : β} (h : Ends (x >>= f) X b Y) :
    ∃ a Z, Ends x X a Z ∧ Ends (f a) Z b Y :=
  ends_bind.mp h

@[simp] lemma not_ends_throw : ¬ Ends (throw e) X a Y :=
  FreshM.not_ends_throw

@[simp] lemma not_ends_exhausted : ¬ Ends exhausted X a Y :=
  FreshM.not_ends_exhausted

@[simp] lemma ends_get : Ends get X μ Y ↔ X.metas = μ ∧ X = Y :=
  ends_pure

@[simp] lemma ends_instantiate {m m' : Term} :
    Ends (ElabM.instantiate m) X m' Y ↔ X.metas.instantiate m = m' ∧ X = Y :=
  ends_pure

@[simp] lemma ends_modify : Ends (modify f) X u Y ↔ { X with metas := f X.metas } = Y := by
  obtain ⟨s', μ'⟩ := Y
  change FreshM.Ends (pure (PUnit.unit, f X.metas)) X.supply (u, μ') s' ↔ _
  simp [and_comm]

@[simp] lemma ends_set : Ends (set μ) X u Y ↔ { X with metas := μ } = Y := by
  obtain ⟨s', μ'⟩ := Y
  change FreshM.Ends (pure (PUnit.unit, μ)) X.supply (u, μ') s' ↔ _
  simp [and_comm]

@[simp] lemma ends_situation : Ends situation X Z Y ↔ X = Z ∧ X = Y :=
  ends_pure

@[simp] lemma ends_goTo {u : Unit} : Ends (goTo Z) X u Y ↔ Z = Y := by
  show Ends (pure ()) Z u Y ↔ _
  simp

@[simp] lemma ends_getSupply {s : Supply} : Ends (getThe Supply) X s Y ↔ X.supply = s ∧ X = Y := by
  exact ends_pure

@[simp] lemma ends_lift {x : FreshM α} :
    Ends (liftM x) X a Y ↔ FreshM.Ends x X.supply a Y.supply ∧ X.metas = Y.metas := by
  change FreshM.Ends (x >>= fun a => pure (a, X.metas)) X.supply (a, Y.metas) Y.supply ↔ _
  simp only [FreshM.ends_bind, FreshM.ends_pure, Prod.mk.injEq]
  constructor
  · rintro ⟨b, s, hx, ⟨rfl, hμ⟩, rfl⟩
    exact ⟨hx, hμ⟩
  · rintro ⟨hx, hμ⟩
    exact ⟨a, Y.supply, hx, ⟨rfl, hμ⟩, rfl⟩

/-- What each step of a loop preserves, the loop preserves. -/
lemma of_ends_foldlM {f : β → α → ElabM β} {as : List α} {b b' : β} {J : β → Situation → Prop}
    (hf : ∀ a ∈ as, ∀ b X b' Y, Ends (f b a) X b' Y → J b X → J b' Y) (h : Ends (as.foldlM f b) X b' Y)
    (hb : J b X) : J b' Y := by
  induction as generalizing b X with
  | nil =>
    obtain ⟨rfl, rfl⟩ := h.pure
    exact hb
  | cons a as ih =>
    obtain ⟨c, Z, hc, h⟩ := h.bind
    rw [forall_mem_cons] at hf
    exact ih hf.2 h (hf.1 b X c Z hc hb)

/-- Where the rest begins after a step that is taken under a condition. -/
lemma of_ends_when [Decidable c] {f : Unit → ElabM α} (h : Ends (if c then x >>= f else f ()) X a Y) :
    ∃ Z, (Ends x X () Z ∨ X = Z) ∧ Ends (f ()) Z a Y := by
  split at h
  · obtain ⟨_, Z, hx, h⟩ := h.bind
    exact ⟨Z, .inl hx, h⟩
  · exact ⟨X, .inr rfl, h⟩

/-- A tactic that does not apply changes nothing. -/
lemma of_ends_recover {x : ElabM α} {r : Option α} (h : Ends (recover x) X r Y) :
    (∃ a, r = some a ∧ Ends x X a Y) ∨ r = none ∧ X = Y := by
  rcases of_ends_tryCatch h with h | ⟨e, h⟩
  · have h : Ends (x >>= fun a => pure (some a)) X r Y := h
    obtain ⟨a, Z, ha, hr⟩ := h.bind
    obtain ⟨rfl, rfl⟩ := hr.pure
    exact .inl ⟨a, rfl, ha⟩
  · cases e with
    | tactic _ =>
      obtain ⟨rfl, hXY⟩ := (ends_pure).mp h
      exact .inr ⟨rfl, hXY⟩
    | _ => exact absurd h not_ends_throw

end Ends

/-- The computation keeps the invariant, and its answer satisfies `P`. -/
def Keeps (I : Invariant) (x : ElabM α) (P : α → Prop) : Prop :=
  ∀ μ, I.metas μ → FreshM.Keeps I (x.run μ) fun r => I.metas r.2 ∧ P r.1

namespace Keeps

variable {c : Prop}

lemma intro {x : ElabM α} (h : ∀ X : Situation, I.supply X.supply → I.metas X.metas → ∀ a Y, Ends x X a Y →
    I.supply Y.supply ∧ I.metas Y.metas ∧ P a) : Keeps I x P :=
  fun μ hμ s hs r s' hr => h ⟨s, μ⟩ hs hμ r.1 ⟨s', r.2⟩ hr

lemma of_ends {x : ElabM α} {Y : Situation} {a : α} (hx : Keeps I x P) (hs : I.supply X.supply)
    (hμ : I.metas X.metas) (h : Ends x X a Y) : I.supply Y.supply ∧ I.metas Y.metas ∧ P a :=
  hx X.metas hμ X.supply hs (a, Y.metas) Y.supply h

lemma mono {x : ElabM α} (h : Keeps I x P) (hPQ : ∀ a, P a → Q a) : Keeps I x Q :=
  fun μ hμ => (h μ hμ).mono fun r hr => ⟨hr.1, hPQ r.1 hr.2⟩

lemma pure {a : α} (h : P a) : Keeps I (pure a) P :=
  fun _ hμ => FreshM.Keeps.pure ⟨hμ, h⟩

lemma bind {x : ElabM α} {f : α → ElabM β} (hx : Keeps I x P) (hf : ∀ a, P a → Keeps I (f a) R) :
    Keeps I (x >>= f) R := by
  intro μ hμ
  exact (hx μ hμ).bind fun r hr => hf r.1 hr.2 r.2 hr.1

lemma map {x : ElabM α} {f : α → β} (hx : Keeps I x fun a => R (f a)) : Keeps I (f <$> x) R := by
  rw [map_eq_pure_bind]
  exact hx.bind fun a ha => pure ha

lemma lift {x : FreshM α} (hx : FreshM.Keeps I x P) : Keeps I (liftM x) P := by
  intro μ hμ
  have hrun : (liftM x : ElabM α).run μ = x >>= fun a => Pure.pure (a, μ) := rfl
  rw [hrun]
  exact hx.bind fun a ha => .pure ⟨hμ, ha⟩

lemma get : Keeps I get I.metas :=
  fun _ hμ => FreshM.Keeps.pure ⟨hμ, hμ⟩

lemma set (hμ : I.metas μ) : Keeps I (set μ) fun _ => True :=
  fun _ _ => FreshM.Keeps.pure ⟨hμ, trivial⟩

lemma modify (hf : ∀ μ, I.metas μ → I.metas (f μ)) : Keeps I (modify f) fun _ => True :=
  fun μ hμ => FreshM.Keeps.pure ⟨hf μ hμ, trivial⟩

lemma getSupply : Keeps I (getThe Supply) I.supply := by
  refine lift fun s hs _ _ h => ?_
  obtain ⟨rfl, rfl⟩ := FreshM.ends_get.mp h
  exact ⟨hs, hs⟩

lemma situation : Keeps I situation fun X => I.supply X.supply ∧ I.metas X.metas := by
  refine .intro fun X hs hμ a Y h => ?_
  obtain ⟨rfl, rfl⟩ := ends_situation.mp h
  exact ⟨hs, hμ, hs, hμ⟩

lemma goTo (h : I.supply X.supply ∧ I.metas X.metas) : Keeps I (goTo X) fun _ => True := by
  refine .intro fun _ _ _ a Y hY => ?_
  obtain rfl := ends_goTo.mp hY
  exact ⟨h.1, h.2, trivial⟩

lemma throw (e : Failure) : Keeps I (throw e : ElabM α) P := by
  intro μ _ s _ a s' h
  exact absurd h FreshM.not_ends_throw

lemma exhausted : Keeps I (exhausted : ElabM α) P :=
  fun _ _ _ _ _ _ h => absurd h FreshM.not_ends_exhausted

lemma fail (Γ : Context) (cause : ElabError.Cause) : Keeps I (fail Γ cause : ElabM α) P :=
  throw _

/-- Nothing runs after a failure. -/
lemma throw_bind (e : Failure) (f : α → ElabM β) : Keeps I (MonadExcept.throw e >>= f) R :=
  bind (P := fun _ => False) (throw e) fun _ h => h.elim

lemma when [Decidable c] {f : Unit → ElabM α} (hx : Keeps I x fun _ => True) (hf : ∀ u, Keeps I (f u) P) :
    Keeps I (if c then x >>= f else f ()) P := by
  split
  · exact hx.bind fun u _ => hf u
  · exact hf ()

/-- A step that does not end rules a condition out for the rest. -/
lemma guard [Decidable c] {f : Unit → ElabM α} (hx : Keeps I x fun _ => False) (hf : ¬ c → Keeps I (f ()) P) :
    Keeps I (if c then x >>= f else f ()) P := by
  split
  · exact hx.bind fun _ h => h.elim
  · exact hf ‹_›

lemma ite_bind [Decidable c] {x y : ElabM β} {f : β → ElabM α} (hx : c → Keeps I x R) (hy : ¬ c → Keeps I y R)
    (hf : ∀ b, R b → Keeps I (f b) P) : Keeps I (if c then x >>= f else y >>= f) P := by
  split
  · exact (hx ‹_›).bind hf
  · exact (hy ‹_›).bind hf

lemma tryCatch {x : ElabM α} {f : Failure → ElabM α} (hx : Keeps I x P)
    (hf : ∀ e, Keeps I (f e) P) : Keeps I (tryCatch x f) P :=
  fun μ hμ => FreshM.Keeps.tryCatch (hx μ hμ) fun e => hf e μ hμ

/-- A tactic that does not apply is like no step at all. -/
lemma recover {x : ElabM α} (hx : Keeps I x P) : Keeps I (recover x) fun r => ∀ a ∈ r, P a := by
  refine tryCatch (map (hx.mono ?_)) fun e => ?_
  · simp
  · cases e with
    | tactic _ => exact pure (by simp)
    | _ => exact throw _

lemma orRestore {x : ElabM Bool} (hx : Keeps I x fun _ => True) : Keeps I (orRestore x) fun _ => True := by
  refine get.bind fun μ hμ => hx.bind fun solved _ => ?_
  cases solved with
  | true => exact pure trivial
  | false => exact (set hμ).bind fun _ _ => pure trivial

/-! ### Lists -/

lemma mapM {f : α → ElabM β} {as : List α} (hf : ∀ a ∈ as, Keeps I (f a) R) :
    Keeps I (as.mapM f) fun bs => ∀ b ∈ bs, R b := by
  induction as with
  | nil => exact pure (by simp)
  | cons a as ih =>
    rw [forall_mem_cons] at hf
    rw [mapM_cons]
    exact hf.1.bind fun b hb => (ih hf.2).bind fun bs hbs => pure (forall_mem_cons.mpr ⟨hb, hbs⟩)

lemma foldlM {f : β → α → ElabM β} {as : List α} {b : β} (hb : R b)
    (hf : ∀ b, R b → ∀ a ∈ as, Keeps I (f b a) R) : Keeps I (as.foldlM f b) R := by
  induction as generalizing b with
  | nil => exact pure hb
  | cons a as ih =>
    exact (hf b hb a mem_cons_self).bind fun b' hb' =>
      ih hb' fun c hc a' ha' => hf c hc a' (mem_cons_of_mem a ha')

lemma findM? {f : α → ElabM Bool} {as : List α} (hf : ∀ a ∈ as, Keeps I (f a) fun _ => True) :
    Keeps I (as.findM? f) fun r => ∀ a ∈ r, a ∈ as := by
  induction as with
  | nil => exact pure (by simp)
  | cons a as ih =>
    rw [forall_mem_cons] at hf
    refine hf.1.bind fun found _ => ?_
    cases found with
    | true => exact pure (by simp)
    | false => exact (ih hf.2).mono fun r hr b hb => mem_cons_of_mem a (hr b hb)

/-- A loop over a list that never ends early. -/
lemma forIn {f : α → PUnit → ElabM (ForInStep PUnit)} {as : List α}
    (hf : ∀ a ∈ as, ∀ u, Keeps I (f a u) fun _ => True) : Keeps I (forIn as PUnit.unit f) fun _ => True := by
  induction as with
  | nil => exact pure trivial
  | cons a as ih =>
    rw [forall_mem_cons] at hf
    rw [forIn_cons]
    refine (hf.1 _).bind fun step _ => ?_
    cases step with
    | done u => exact pure trivial
    | yield u => exact ih hf.2

end Keeps

end ElabM

end ProofAssistant
