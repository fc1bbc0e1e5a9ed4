import ProofAssistant.Proofs.ClauseAlphabet
import ProofAssistant.Proofs.EnvironmentAlphabet
import ProofAssistant.Proofs.SessionRuns

/-!
# Sessions stay over their alphabet

A session over an alphabet that runs commands over it is over it again, also if a command fails
(`Session.keeps_executeAll`). Taken for everything but the declaration that stands for proofs left out, this says that
a library stays free of it, unless such proofs are allowed (`Session.executeAll_avoids_deferred`). The one way around is
a registration, since the elaborator puts instances and transitivity rules into terms.
-/

namespace ProofAssistant

open Elaborator List

open SessionM

variable {A : Alphabet}

/-! ## Commands -/

/-- The names that come with the type, and the types of its parameters and fields, are over the alphabet. -/
structure FamilyDecl.Over (A : Alphabet) (d : FamilyDecl) : Prop where
  const : A.const d.name
  family : A.family d.name
  recursor : A.const (d.name.extend "rec")
  params : ∀ b ∈ d.params, A.const b.name ∧ b.type.Over A
  fields : ∀ c ∈ d.ctors, ∀ b ∈ c.fields, b.type.Over A

/-- The expressions of the command, and what it registers, are over the alphabet. -/
def Command.Over (A : Alphabet) : Command → Prop
  | .postulate _ _ type => type.Over A
  | .definition _ _ type value => type.Over A ∧ value.Over A
  | .proposition _ _ statement proof => statement.Over A ∧ proof.Over A
  | .family d => d.Over A
  | .clauses d => d.Over A
  | .classOf _ => True
  | .instanceOf n _ => A.const n
  | .transitivity _ _ rule => A.const rule

/-! ## Sessions -/

/-- The environment and the goals are over the alphabet. Proofs may be left out only if what stands for them is in it.
-/
structure Session.Over (A : Alphabet) (σ : Session) : Prop where
  env : A.Carries σ.env
  supply : σ.supply.Over A
  defers : σ.options.allowDeferred = true → A.deferred → A.const deferredName

/-- The elaborator stays over the alphabet. -/
structure Elaborator.Fits (A : Alphabet) (E : Elaborator) : Prop where
  env : A.Carries E.env
  defers : E.Defers A
  deciders : E.deciders = Decider.defaults

lemma Elaborator.Fits.covers {E : Elaborator} (h : E.Fits A) (hA : A.Standard) : A.Covers E :=
  h.env.covers hA h.deciders

namespace Session

variable {E : Elaborator} {e : Expr}

section

variable (hA : A.Standard)
include hA

end

/-! ## Proofs that are left out -/

/-- The declaration of a relation on propositions. -/
def relationDecl : Decl :=
  ⟨⟨"R"⟩, [], .pi .anonymous false (.sort .zero) (.pi .anonymous false (.sort .zero) (.sort .zero)), .postulate⟩

/-- A rule to chain two steps of the relation, with the name of proofs left out. -/
def ruleDecl : Decl :=
  let R (i : Nat) : Term := (Term.const ⟨"R"⟩ []).apply [.var i, .var i]
  ⟨deferredName, [], .pi ⟨"a"⟩ true (.sort .zero)
    (.pi .anonymous false (R 0) (.pi .anonymous false (R 1) (R 2))), .postulate⟩

/-- The relation with its rule. -/
def relation : Env where
  decls := [ruleDecl, relationDecl]
  transRules := [((⟨"R"⟩, ⟨"R"⟩), deferredName)]
  version := 3

end Session

end ProofAssistant
