import ProofAssistant.Proofs.FinishedTerms
import ProofAssistant.Proofs.RecursiveCalls

/-!
# Compiled clauses stay over their alphabet

What elaboration starts from nothing keeps an alphabet (`FreshM.Keeps.fromStart`), and so the compiler of
clauses does: what it makes of a definition over an alphabet is over it (`Compiler.keeps_compile`). Besides
what is elaborated, it puts in the function itself, constructors and the recursor of the type matched, and the
declarations on equality.
-/

namespace ProofAssistant

open List Local Elaborator FreshM Term

variable {A : Alphabet} {μ₀ : Metas}
variable {c : Prop} {type expected value : Term} {xs binders : List Local} {T : FamilyInstance}

/-! ## Computations in rows -/

namespace FreshM.Keeps

variable {I : Invariant} {α β : Type} {P : α → Prop} {R : β → Prop}

lemma mapM {f : α → FreshM β} {as : List α} (hf : ∀ a ∈ as, Keeps I (f a) R) :
    Keeps I (as.mapM f) fun bs => ∀ b ∈ bs, R b := by
  induction as with
  | nil => exact pure (by simp)
  | cons a as ih =>
    rw [forall_mem_cons] at hf
    rw [mapM_cons]
    exact hf.1.bind fun b hb => (ih hf.2).bind fun bs hbs => pure (forall_mem_cons.mpr ⟨hb, hbs⟩)

lemma forIn {f : α → PUnit → FreshM (ForInStep PUnit)} {as : List α}
    (hf : ∀ a ∈ as, ∀ u, Keeps I (f a u) fun _ => True) : Keeps I (forIn as PUnit.unit f) fun _ => True := by
  induction as with
  | nil => exact pure trivial
  | cons a as ih =>
    rw [forall_mem_cons] at hf
    rw [forIn_cons]
    refine (hf.1 _).bind fun step _ => ?_
    cases step with
    | done u => exact pure trivial
    | yield u => exact ih hf.2

lemma guard [Decidable c] {x : FreshM β} {f : β → FreshM α} {y : FreshM α}
    (hx : Keeps I x fun _ => False) (hy : ¬ c → Keeps I y P) : Keeps I (if c then x >>= f else y) P := by
  split
  · exact hx.bind fun _ h => h.elim
  · exact hy ‹_›

lemma ite_bind {γ : Type} [Decidable c] {x : FreshM β} {y : FreshM γ} {g : γ → FreshM β}
    {f : β → FreshM α} (hx : c → Keeps I x R) (hy : ¬ c → Keeps I (y >>= g) R)
    (hf : ∀ b, R b → Keeps I (f b) P) : Keeps I (if c then x >>= f else y >>= fun b => g b >>= f) P := by
  split
  · exact (hx ‹_›).bind hf
  · rw [← bind_assoc]
    exact (hy ‹_›).bind hf

end FreshM.Keeps

/-- A computation that starts with nothing solved keeps what it keeps of the identities. -/
lemma FreshM.Keeps.fromStart {α : Type} {P : α → Prop} {x : ElabM α}
    (hx : ElabM.Keeps (A.invariant {}) x P) : FreshM.Keeps (A.invariant μ₀) x.fromStart P := by
  intro s hs a s' h
  obtain ⟨μ, h⟩ := ends_fromStart.mp h
  obtain ⟨hs', -, hP⟩ := hx {} ⟨⟨by simp, by simp⟩, .refl _⟩ s hs _ _ h
  exact ⟨hs', hP⟩

namespace Elaborator

variable {E : Elaborator} {Γ : Context} {e : Expr}

/-- Proofs may be left out, where the alphabet has holes for them, only if the declaration that stands for them is
in it. -/
def Defers (A : Alphabet) (E : Elaborator) : Prop :=
  E.options.allowDeferred = true → A.deferred → A.const deferredName

end Elaborator

/-! ## Definitions by clauses -/

/-- The function, its type and its right-hand sides are over the alphabet. -/
structure ClauseDef.Over (A : Alphabet) (d : ClauseDef) : Prop where
  name : A.const d.name
  type : d.type.Over A
  clauses : ∀ c ∈ d.clauses, c.rhs.Over A

/-- What is added for a compiled function is over the alphabet. -/
structure Compiled.Over (A : Alphabet) (c : Compiled) : Prop where
  name : A.const c.name
  type : c.type.Over A
  value : c.value.Over A
  equations : ∀ e ∈ c.equations, e.type.Over A ∧ e.proof.Over A

namespace Compiler

variable {E : Elaborator} {d : ClauseDef}

lemma keeps_sortOf (Γ : Context) (m : Term) : FreshM.Keeps (A.invariant μ₀) (sortOf E Γ m) fun _ => True :=
  .fromStart (Elaborator.keeps_sortOf m)

namespace Job

variable {J : Job}

/-- The definition is over the alphabet, and the patterns of a clause are as many as the arguments. -/
structure Over (A : Alphabet) (J : Job) : Prop where
  covers : A.Covers J.elaborator
  defers : J.elaborator.Defers A
  equality : A.const ⟨"Eq"⟩
  definition : J.definition.Over A
  type : J.type.Over A
  self : J.self.type.Over A
  args : ∀ x ∈ J.args, x.type.Over A
  result : J.result.Over A
  arity : ∀ c ∈ J.definition.clauses, c.patterns.length = J.args.length

lemma Over.clauseContext (hJ : J.Over A) (hxs : ∀ x ∈ xs, x.type.Over A) : (J.clauseContext xs).Over A :=
  Context.Over.pushAll (forall_mem_singleton.mpr hJ.self) hxs

lemma Over.equation (hJ : J.Over A) (number : Nat)
    (hbinders : ∀ x ∈ binders, x.type.Over A) {args : List Term} (hargs : ∀ a ∈ args, a.Over A) {rhs : Term}
    (hrhs : rhs.Over A) (htype : type.Over A) : (J.equation number binders args rhs type).type.Over A ∧
      (J.equation number binders args rhs type).proof.Over A := by
  have hf : J.definition.constant.Over A := hJ.definition.name
  have hlhs : (J.definition.constant.apply args).Over A := over_apply.mpr ⟨hf, hargs⟩
  have hrhs' : (rhs.subst [(J.self.id, J.definition.constant)]).Over A :=
    hrhs.subst (forall_mem_singleton.mpr hf)
  refine ⟨Term.Over.pis ?_ hbinders, Term.Over.abs ?_ hbinders⟩
  · exact over_apply.mpr ⟨hJ.equality, by simp [htype, hlhs, hrhs']⟩
  · exact over_apply.mpr ⟨hJ.covers.equality "Eq.refl" (by simp), by simp [htype, hlhs]⟩

lemma Over.compiled (hJ : J.Over A) (hvalue : value.Over A) {es : List DefiningEquation}
    (hes : ∀ e ∈ es, e.type.Over A ∧ e.proof.Over A) : (J.compiled value es).Over A :=
  ⟨hJ.definition.name, hJ.type, hvalue, hes⟩

variable {x : Split}

lemma Over.split (hJ : J.Over A) (hargs : J.args = x.before ++ [x.major] ++ x.after) :
    (∀ y ∈ x.before, y.type.Over A) ∧ x.major.type.Over A ∧ ∀ y ∈ x.after, y.type.Over A := by
  have h := hJ.args
  rw [hargs, forall_mem_append, forall_mem_append, forall_mem_singleton] at h
  exact ⟨h.1.1, h.1.2, h.2⟩

lemma Over.statement (hJ : J.Over A) (hargs : J.args = x.before ++ [x.major] ++ x.after) : (x.statement J).Over A :=
  hJ.result.pis (hJ.split hargs).2.2

end Job

end Compiler

end ProofAssistant
