import ProofAssistant.Prelude
import ProofAssistant.Proofs.CompiledEquations
import ProofAssistant.Proofs.Warnings

/-!
# Commands that fail

A command adds to the environment when all else is done, so what fails has added nothing. Functions defined by
clauses are the exception. The definition is added first and the equations follow one by one; if one of them is
rejected, the definition and the equations before it stay.
-/

namespace ProofAssistant

variable {σ σ' : Session}
variable {e : Failure} {c : Command} {n : Notice} {params : List Name}

namespace SessionM

variable {ε ε' α β : Type} {x : SessionM ε α}

/-- The environment stays the same. -/
def Inert (x : SessionM ε α) : Prop :=
  ∀ env, Keeps (·.env = env) x fun _ => True

/-- The environment stays the same in a failure. -/
def Atomic (x : SessionM ε α) : Prop :=
  ∀ σ e σ', Ends x σ (.error e) σ' → σ'.env = σ.env

lemma Inert.bind {f : α → SessionM ε β} (hx : Inert x) (hf : ∀ a, Inert (f a)) : Inert (x >>= f) :=
  fun env => (hx env).bind fun a _ => hf a env

lemma Atomic.adapt (hx : Atomic x) (f : ε → ε') : Atomic (x.adapt f : SessionM ε' α) := by
  intro σ e σ' h
  obtain ⟨r, hr, heq⟩ := ends_adapt.mp h
  cases r with
  | ok a => simp [Except.mapError] at heq
  | error e' => exact hx σ e' σ' hr

end SessionM

namespace Session

open SessionM

end Session

end ProofAssistant
