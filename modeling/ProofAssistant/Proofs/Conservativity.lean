import ProofAssistant.Proofs.ConstructorFields

/-!
# Additions are conservative

Reduction, conversion and type checking look up names only, and what a declared name unfolds to or has as its type
mentions declared names again (`Env.declared`). So a run in a later environment is the same run.

The two runs may number the hypotheses of binders differently, and `Renumbering` relates them. Types mention no such
hypothesis; errors may do so, and are the same after renumbering (`Env.additions_conservative`).
-/

namespace ProofAssistant

variable {x : Id}

/-! ## Other numbers -/

/-- Moves the numbers from `next` on to those from `next'` on. -/
def Id.renumber (next next' : Nat) (x : Id) : Id :=
  if x.number < next then x else ⟨x.number - next + next', x.hint⟩

/-- The hypothesis under its new identity. -/
def Local.relabel (ρ : Id → Id) (x : Local) : Local :=
  ⟨ρ x.id, x.name, x.type.relabel ρ fun l => l⟩

/-- The malformation in terms of the new identities. -/
def Malformation.relabel (ρ : Id → Id) : Malformation → Malformation
  | .wrongResult c expected => .wrongResult c (expected.relabel ρ id)
  | reason => reason

/-- The cause in terms of the new identities. -/
def TypeError.Cause.relabel (ρ : Id → Id) : TypeError.Cause → TypeError.Cause
  | .unboundVariable x => .unboundVariable (ρ x)
  | .sortExpected type => .sortExpected (type.relabel ρ id)
  | .functionExpected type => .functionExpected (type.relabel ρ id)
  | .typeMismatch expected inferred => .typeMismatch (expected.relabel ρ id) (inferred.relabel ρ id)
  | .notAProposition type => .notAProposition (type.relabel ρ id)
  | .malformed reason => .malformed (reason.relabel ρ)
  | cause => cause

/-- The error in terms of the new identities. -/
def TypeError.relabel (ρ : Id → Id) (e : TypeError) : TypeError :=
  ⟨e.cause.relabel ρ, e.term.relabel ρ id, e.context.relabel ρ⟩

namespace Fueled

variable {α α' β β' : Type} {ρ : Id → Id}

/-- The same answer, mapped by `f`, or the same error in terms of the new identities. -/
def relabel (ρ : Id → Id) (f : α → β) (x : Fueled TypeError α) : Fueled TypeError β :=
  ExceptT.mk (x.run.map fun
    | .ok a => .ok (f a)
    | .error e => .error (e.relabel ρ))

lemma relabel_ofOption (f : α → β) (o : Option α) : relabel ρ f (ofOption o) = ofOption (o.map f) := by
  cases o <;> rfl

lemma relabel_congr {f g : α → β} {x : Fueled TypeError α} (h : ∀ a, x.Yields a → f a = g a) :
    x.relabel ρ f = x.relabel ρ g := by
  rcases x with _ | (e | a)
  · rfl
  · rfl
  · exact congrArg (fun b => ExceptT.mk (some (.ok b))) (h a rfl)

lemma relabel_bind {x : Fueled TypeError α} {x' : Fueled TypeError α'} {g : α → α'} (hx : x' = x.relabel ρ g)
    {f : α → Fueled TypeError β} {f' : α' → Fueled TypeError β'} {h : β → β'}
    (hf : ∀ a, x.Yields a → f' (g a) = (f a).relabel ρ h) : (x' >>= f') = (x >>= f).relabel ρ h := by
  subst hx
  rcases x with _ | (e | a)
  · rfl
  · rfl
  · exact hf a rfl

end Fueled

/-- The binders of two runs take their numbers from `next` and from `next'` on, and `ρ` leads from the one to the other.
-/
structure Renumbering (S : Scope) (next next' : Nat) (ρ : Id → Id) : Prop extends Renaming S next next' ρ where
  fresh : ∀ i hint, ρ ⟨next + i, hint⟩ = ⟨next' + i, hint⟩

namespace Renumbering

variable {S : Scope} {next next' : Nat} {ρ : Id → Id}

lemma fresh_zero (h : Renumbering S next next' ρ) (hint : Option Name) : ρ ⟨next, hint⟩ = ⟨next', hint⟩ :=
  h.fresh 0 hint

/-- The next number is the same one on both sides. -/
lemma push (h : Renumbering S next next' ρ) (hint : Option Name) :
    Renumbering (S.push ⟨next, hint⟩) (next + 1) (next' + 1) ρ where
  toRenaming := by
    have hextend : Renaming.extend ρ next next' hint = ρ := by
      rw [Renaming.extend, ← h.fresh_zero hint, Function.update_eq_self]
    have hpush := h.toRenaming.push hint
    rwa [hextend] at hpush
  fresh i hint := by
    have hfresh := h.fresh (i + 1) hint
    rwa [← Nat.add_assoc, ← Nat.add_assoc, Nat.add_right_comm, Nat.add_right_comm next'] at hfresh

end Renumbering

lemma renumbering_renumber {S : Scope} {next next' : Nat} (hsource : ∀ x, S.free x → x.number < next)
    (htarget : ∀ x, S.free x → x.number < next') : Renumbering S next next' (Id.renumber next next') := by
  have hkeep : ∀ x, S.free x → Id.renumber next next' x = x := fun x hx => if_pos (hsource x hx)
  refine ⟨⟨fun x y hx hy heq => ?_, hsource, fun x hx => ?_⟩, fun i hint => ?_⟩
  · rwa [hkeep x hx, hkeep y hy] at heq
  · rw [hkeep x hx]
    exact htarget x hx
  · have hnot : ¬ next + i < next := by omega
    have hnum : next + i - next + next' = next' + i := by omega
    simp only [Id.renumber, hnot, if_false, hnum]

namespace Context

variable {S : Scope} {Γ : Context} {ρ : Id → Id}

/-- The hypotheses and what their types mention are in scope. -/
def In (S : Scope) (Γ : Context) : Prop :=
  ∀ x ∈ Γ.locals, S.free x.id ∧ ∃ k, x.type.In S k

lemma In.add (hΓ : Γ.In S) {x : Local} {k : Nat} (hx : x.type.In S k) : (Γ.add x).In (S.push x.id) := by
  intro y hy
  rcases List.mem_append.mp hy with hy | hy
  · obtain ⟨hfree, j, htype⟩ := hΓ y hy
    exact ⟨.inl hfree, j, htype.widen (S.le_push _)⟩
  · obtain rfl := List.mem_singleton.mp hy
    exact ⟨.inr rfl, k, hx.widen (S.le_push _)⟩

lemma In.type_of_get? (hΓ : Γ.In S) {h : Local} (hget : Γ.get? x = some h) : ∃ k, h.type.In S k :=
  (hΓ h (List.mem_reverse.mp (List.mem_of_find?_eq_some hget))).2

lemma relabel_add (x : Local) : (Γ.add x).relabel ρ = (Γ.relabel ρ).add (x.relabel ρ) := by
  simp only [relabel, add, List.map_append]
  rfl

lemma get?_relabel (hΓ : Γ.In S) (hρ : ∀ x y, S.free x → S.free y → ρ x = ρ y → x = y) (hx : S.free x) :
    (Γ.relabel ρ).get? (ρ x) = (Γ.get? x).map (·.relabel ρ) := by
  have hfind : ∀ xs : List Local, (∀ y ∈ xs, S.free y.id) →
      (xs.map (·.relabel ρ)).find? (·.id == ρ x) = (xs.find? (·.id == x)).map (·.relabel ρ) := by
    intro xs hxs
    induction xs with
    | nil => rfl
    | cons y ys ih =>
      obtain ⟨hy, hys⟩ := List.forall_mem_cons.mp hxs
      have hiff : (y.relabel ρ).id = ρ x ↔ y.id = x := ⟨hρ _ _ hy hx, congrArg ρ⟩
      have hbeq : ((y.relabel ρ).id == ρ x) = (y.id == x) := by
        rw [beq_eq_decide, beq_eq_decide, decide_eq_decide.mpr hiff]
      simp only [List.map_cons, List.find?_cons, hbeq, ih hys]
      split <;> rfl
  have hmem : ∀ y ∈ Γ.locals.reverse, S.free y.id := fun y hy => (hΓ y (List.mem_reverse.mp hy)).1
  have hlocals : (Γ.relabel ρ).locals = Γ.locals.map (·.relabel ρ) := rfl
  rw [get?, get?, hlocals, ← List.map_reverse, hfind _ hmem]

end Context

/-! ## Declared names -/

namespace Env

variable {m : Term} {P : Id → Prop} {k next n : Nat} {Γ : Context}

open Fueled List Term Nat

/-- What mentions declared names only, and hypotheses that satisfy `P`. -/
def declared (env : Env) (P : Id → Prop) : Scope where
  free := P
  const c _ := (env.get? c).isSome
  ctor t _ _ := (env.get? t).isSome

/-- Names that are declared in the first environment mean the same in the second one. -/
structure Agrees (env env' : Env) : Prop where
  get? : ∀ c, (env.get? c).isSome → env'.get? c = env.get? c
  recursors : ∀ c, (env.get? c).isSome → env'.recursorOf? c = env.recursorOf? c
  families : ∀ c, (env.get? c).isSome → env'.inductive? c = env.inductive? c

variable {env env' : Env}

lemma Growth.agrees (henv : Reachable env) (h : Growth env env') : env.Agrees env' := by
  have hcont := h.continues henv
  refine ⟨fun c hc => ?_, fun c hc => ?_, fun c hc => ?_⟩ <;> obtain ⟨d, hd⟩ := Option.isSome_iff_exists.mp hc
  · rw [hd, h.get?_eq hd]
  · exact hcont.recursors c d hd
  · cases h with
    | decl d' _ _ => rfl
    | @family fuel next spec a hb =>
      -- the name of the new type was not declared before
      have hnew : env.get? spec.name = none := (fresh_of_checkNames a.names).1
      have hne : spec.name ≠ c := fun heq => by rw [← heq, hnew] at hd; exact nomatch hd
      have hbeq : (a.info.name == c) = false := beq_eq_false_iff_ne.mpr hne
      simp only [inductive?, a.inductives_result, find?_cons, hbeq]
    | registration _ hind _ => rw [inductive?, inductive?, hind]

lemma agrees_of_added (henv : Reachable env) (h : Relation.ReflTransGen Added env env') : env.Agrees env' := by
  induction h with
  | refl => exact ⟨fun _ _ => rfl, fun _ _ => rfl, fun _ _ => rfl⟩
  | @tail env₁ env₂ hadded hadd ih =>
    have hstep := hadd.growth.agrees (Relation.ReflTransGen.trans henv hadded)
    have hkept : ∀ c, (env.get? c).isSome → (env₁.get? c).isSome := fun c hc => by rwa [ih.get? c hc]
    exact ⟨fun c hc => (hstep.get? c (hkept c hc)).trans (ih.get? c hc),
      fun c hc => (hstep.recursors c (hkept c hc)).trans (ih.recursors c hc),
      fun c hc => (hstep.families c (hkept c hc)).trans (ih.families c hc)⟩

lemma declared_instantiate (henv : Reachable env) {qs : List Name} (hm : m.In (env.scope qs fun _ => False) 0)
    (ls : List Level) (P : Id → Prop) : (m.instantiateLevelParams qs ls).In (env.declared P) 0 := by
  rw [instantiateLevelParams_eq_mapLevels]
  refine hm.mapLevels (fun _ h => h.elim) (fun _ h => h.elim) (fun _ _ => trivial) ?_ ?_
  · rintro c _ ⟨⟨d, hd, _⟩, _⟩
    exact Option.isSome_iff_exists.mpr ⟨d, hd⟩
  · rintro n _ _ ⟨⟨t, ht, _⟩, _⟩
    obtain ⟨hmem, rfl⟩ := name_of_inductive? ht
    obtain ⟨d, hd, _⟩ := familiesDeclared henv t hmem
    exact Option.isSome_iff_exists.mpr ⟨d, hd⟩

lemma admits_declared (henv : Reachable env) (P : Id → Prop) : env.Admits (env.declared P) := by
  intro c ls d v n hget hkind _ _
  have hv : v ∈ d.terms := by simp [Decl.terms, hkind]
  exact declared_instantiate henv ((scoped_of_reachable henv).terms d (mem_of_find?_eq_some hget) v hv) ls P

lemma Agrees.relabels (h : env.Agrees env') (henv : Reachable env) (P : Id → Prop) :
    env.Relabels env' (env.declared P) id where
  recursor c _ hc := h.recursors c hc
  height c _ hc := by rw [constHeight, constHeight, h.get? c hc]
  unfold c ls hc ρ := by
    obtain ⟨d, hd⟩ := Option.isSome_iff_exists.mp hc
    rw [map_id, unfoldConst?_of_get? hd, unfoldConst?_of_get? ((h.get? c hc).trans hd)]
    cases hkind : d.kind with
    | definition v n =>
      have hv : v ∈ d.terms := by simp [Decl.terms, hkind]
      have hclosed := relabel_instance ((scoped_of_reachable henv).terms d (mem_of_find?_eq_some hd) v hv) ls ρ
      simp only
      split
      · rw [Option.map_some, hclosed]
      · rfl
    | _ => rfl

/-! ## Type checking -/

variable {ps : List Name}

lemma declared_opened {b : Term} (hb : b.In (env.declared P) (k + 1)) (next : Nat) (x : Name) (t : Term) :
    (b.instantiate (Local.new next x t).term).In (env.declared fun y => P y ∨ y = ⟨next, some x⟩) k :=
  (hb.widen ((env.declared P).le_push _)).instantiate (.inr rfl)

lemma declared_add (hΓ : Γ.In (env.declared P)) {t : Term} (ht : t.In (env.declared P) k) (next : Nat) (x : Name) :
    (Γ.add (.new next x t)).In (env.declared fun y => P y ∨ y = ⟨next, some x⟩) :=
  Context.In.add hΓ ht

lemma Infers.type_declared (henv : Reachable env) {T : Term} (h : env.Infers ps next Γ m T)
    (hΓ : Γ.In (env.declared P)) (hm : m.In (env.declared P) k) : ∃ j, T.In (env.declared P) j := by
  have hscoped := scoped_of_reachable henv
  induction h generalizing P k with
  | free hget => exact hΓ.type_of_get? hget
  | sort _ => exact ⟨0, trivial⟩
  | const hget _ _ _ =>
    exact ⟨0, declared_instantiate henv
      (hscoped.terms _ (mem_of_find?_eq_some hget) _ (Decl.type_mem_terms _)) _ P⟩
  | ctor ht hk _ _ =>
    exact ⟨0, declared_instantiate henv (hscoped.ctors _ _ ht _ (mem_of_getElem? hk)) _ P⟩
  | @app _ _ _ _ f a _ _ t b x i _ hpi _ _ ihf iha =>
    obtain ⟨j, hF⟩ := ihf hΓ hm.1
    have hpiIn : (Term.pi x i t b).In (env.declared P) j :=
      (steps_of_whnf hpi).in_scope (admits_declared henv P) hF
    exact ⟨j + k, (hpiIn.2.le (by omega)).instantiate (hm.2.le (by omega))⟩
  | @lam next _ Γ x t b S B _ _ _ _ _ ihb =>
    obtain ⟨j, hB⟩ := ihb (declared_add hΓ hm.1 next x) (declared_opened hm.2 next x t)
    have hout : (env.declared fun y => (P y ∨ y = ⟨next, some x⟩) ∧ y ≠ ⟨next, some x⟩).Le (env.declared P) :=
      { free := fun _ hy => hy.1.resolve_right hy.2 }
    have hclose : (B.close [⟨next, some x⟩] 0).In (env.declared P) (j + 1) := hB.close.widen hout
    exact ⟨j + k, hm.1.le (by omega), hclose.le (by omega)⟩
  | pi => exact ⟨0, trivial⟩

section

variable {ρ : Id → Id} {Γ : Context} {m : Term}

lemma checkLevel_relabel (l : Level) :
    checkLevel ps (Γ.relabel ρ) (m.relabel ρ id) l = (checkLevel ps Γ m l).relabel ρ id := by
  unfold checkLevel
  split
  · rfl
  · split <;> rfl

lemma forM_checkLevel_relabel (ls : List Level) :
    ls.forM (checkLevel ps (Γ.relabel ρ) (m.relabel ρ id)) = (ls.forM (checkLevel ps Γ m)).relabel ρ id := by
  induction ls with
  | nil => rfl
  | cons l ls ih =>
    exact relabel_bind (checkLevel_relabel l) fun _ _ => ih

lemma instantiateType_relabel {qs : List Name} {type : Term} (c : Name) (ls : List Level)
    (htype : (type.instantiateLevelParams qs ls).relabel ρ id = type.instantiateLevelParams qs ls) :
    instantiateType ps (Γ.relabel ρ) (m.relabel ρ id) c qs (ls.map id) type =
      (instantiateType ps Γ m c qs ls type).relabel ρ (·.relabel ρ id) := by
  rw [map_id]
  unfold instantiateType
  split
  · rfl
  · refine relabel_bind (forM_checkLevel_relabel ls) fun _ _ => ?_
    exact congrArg pure htype.symm

end

/-- With this much fuel the checker answers alike in both environments, up to the numbers of hypotheses. -/
structure ChecksAlike (env env' : Env) (ps : List Name) (fuel : Nat) : Prop where
  infer : ∀ {P : Id → Prop} {ρ : Id → Id} {next next' k : Nat} {Γ : Context} {m : Term},
    Renumbering (env.declared P) next next' ρ → Γ.In (env.declared P) → m.In (env.declared P) k →
    env'.infer ps fuel next' (Γ.relabel ρ) (m.relabel ρ id) =
      (env.infer ps fuel next Γ m).relabel ρ (·.relabel ρ id)
  inferSort : ∀ {P : Id → Prop} {ρ : Id → Id} {next next' k : Nat} {Γ : Context} {m : Term},
    Renumbering (env.declared P) next next' ρ → Γ.In (env.declared P) → m.In (env.declared P) k →
    env'.inferSort ps fuel next' (Γ.relabel ρ) (m.relabel ρ id) = (env.inferSort ps fuel next Γ m).relabel ρ id
  check : ∀ {P : Id → Prop} {ρ : Id → Id} {next next' k k' : Nat} {Γ : Context} {m expected : Term},
    Renumbering (env.declared P) next next' ρ → Γ.In (env.declared P) → m.In (env.declared P) k →
    expected.In (env.declared P) k' →
    env'.check ps fuel next' (Γ.relabel ρ) (m.relabel ρ id) (expected.relabel ρ id) =
      (env.check ps fuel next Γ m expected).relabel ρ id

section

variable {P : Id → Prop} {ρ : Id → Id} {next next' k : Nat} {Γ : Context} {m : Term} {fuel : Nat}

/-- A type that is found and reduced. -/
lemma ChecksAlike.whnf {β β' : Type} (h : ChecksAlike env env' ps fuel) (henv : Reachable env)
    (hagrees : env.Agrees env') (hρ : Renumbering (env.declared P) next next' ρ) (hΓ : Γ.In (env.declared P))
    (hm : m.In (env.declared P) k) {f : Term → Fueled TypeError β} {f' : Term → Fueled TypeError β'} {g : β → β'}
    (hf : ∀ T j, T.In (env.declared P) j → f' (T.relabel ρ id) = (f T).relabel ρ g) :
    (do f' (← ofOption (env'.whnf fuel (← env'.infer ps fuel next' (Γ.relabel ρ) (m.relabel ρ id))))) =
      (do f (← ofOption (env.whnf fuel (← env.infer ps fuel next Γ m)))).relabel ρ g := by
  refine relabel_bind (h.infer hρ hΓ hm) fun T hT => ?_
  obtain ⟨j, hTin⟩ := (infers_of_infer hT).type_declared henv hΓ hm
  have hwhnf := (hagrees.relabels henv P).whnf (admits_declared henv P) hTin ρ fuel
  refine relabel_bind ((congrArg ofOption hwhnf).trans (relabel_ofOption ..).symm) fun T' hT' => ?_
  exact hf T' j ((steps_of_whnf (yields_ofOption.mp hT')).in_scope (admits_declared henv P) hTin)

end

/-- The three functions of the checker, by induction on the fuel that they share. -/
lemma checksAlike (henv : Reachable env) (hagrees : env.Agrees env') (ps : List Name) (fuel : Nat) :
    ChecksAlike env env' ps fuel := by
  induction fuel with
  | zero => exact ⟨fun _ _ _ => rfl, fun _ _ _ => rfl, fun _ _ _ _ => rfl⟩
  | succ fuel ih =>
    have hscoped := scoped_of_reachable henv
    refine ⟨fun {P ρ next next' k Γ m} hρ hΓ hm => ?_, fun {P ρ next next' k Γ m} hρ hΓ hm => ?_,
      fun {P ρ next next' k k' Γ m expected} hρ hΓ hm hexpected => ?_⟩
    · -- a hypothesis that a binder adds gets the next number on both sides
      have hlocal (x : Name) (t : Term) : (Γ.add (.new next x t)).relabel ρ =
          (Γ.relabel ρ).add (.new next' x (t.relabel ρ id)) := by
        rw [Context.relabel_add, Local.new, Local.relabel, hρ.fresh_zero]
        rfl
      have hopened (x : Name) (t b : Term) : (b.instantiate (Local.new next x t).term).relabel ρ id =
          (b.relabel ρ id).instantiate (Local.new next' x (t.relabel ρ id)).term := by
        rw [Term.relabel_instantiate, Local.term, Local.new, Term.relabel, hρ.fresh_zero]
        rfl
      cases m with
      | var i => rfl
      | hole h d => rfl
      | free x =>
        rw [Term.relabel, infer, infer, Context.get?_relabel hΓ hρ.inj hm]
        cases Γ.get? x <;> rfl
      | sort l =>
        refine relabel_bind (checkLevel_relabel l) fun _ _ => ?_
        rfl
      | const c ls =>
        have hm' : (env.get? c).isSome := hm
        obtain ⟨d, hd⟩ := Option.isSome_iff_exists.mp hm'
        have htype := relabel_instance (hscoped.terms d (mem_of_find?_eq_some hd) _ d.type_mem_terms) ls ρ
        rw [Term.relabel, infer, infer, hagrees.get? c hm', hd]
        simp only
        cases d.kind with
        | constructor t i => rfl
        | _ => exact instantiateType_relabel (m := .const c ls) c ls htype
      | ctor family i n ls =>
        have hm' : (env.get? family).isSome := hm
        rw [Term.relabel, infer, infer, hagrees.families family hm']
        cases ht : env.inductive? family with
        | none => rfl
        | some t =>
          simp only
          cases hk : t.ctors[i]? with
          | none => rfl
          | some c =>
            have htype := relabel_instance (hscoped.ctors _ _ ht _ (mem_of_getElem? hk)) ls ρ
            exact instantiateType_relabel (m := .ctor family i n ls) c.name ls htype
      | app f a =>
        refine ih.whnf henv hagrees hρ hΓ hm.1 fun T j hT => ?_
        cases T with
        | pi x i t b =>
          refine relabel_bind (ih.check hρ hΓ hm.2 hT.1) fun _ _ => ?_
          exact congrArg pure (relabel_instantiate ρ id b a).symm
        | _ => rfl
      | lam x t b =>
        have hbody := declared_opened hm.2 next x t
        have hΓ' := declared_add hΓ hm.1 next x
        have hρ' := hρ.push (some x)
        have hinfer := ih.infer hρ' hΓ' hbody
        rw [hlocal, hopened] at hinfer
        refine relabel_bind (ih.inferSort hρ hΓ hm.1) fun _ _ => ?_
        refine relabel_bind hinfer fun B hB => ?_
        obtain ⟨j, hBin⟩ := (infers_of_infer hB).type_declared henv hΓ' hbody
        have hclose := relabel_close ρ id hBin fun y hy => hρ'.inj y _ hy (.inr rfl)
        rw [hρ.fresh_zero] at hclose
        exact congrArg (fun b => pure (pi x false (t.relabel ρ id) b)) hclose.symm
      | pi x i t b =>
        have hsort := ih.inferSort (hρ.push (some x))
          (declared_add hΓ hm.1 next x) (declared_opened hm.2 next x t)
        rw [hlocal, hopened] at hsort
        refine relabel_bind (ih.inferSort hρ hΓ hm.1) fun _ _ => ?_
        refine relabel_bind hsort fun _ _ => ?_
        rfl
    · rw [inferSort]
      refine ih.whnf henv hagrees hρ hΓ hm fun T j hT => ?_
      cases T <;> rfl
    · rw [check]
      refine relabel_bind (ih.infer hρ hΓ hm) fun T hT => ?_
      obtain ⟨j, hTin⟩ := (infers_of_infer hT).type_declared henv hΓ hm
      have hconv := isDefEq_relabel (hagrees.relabels henv P) (admits_declared henv P) hρ.toRenaming hTin hexpected fuel
      have hanswer : ofOption (env'.isDefEq fuel next' (T.relabel ρ id) (expected.relabel ρ id)) =
          (ofOption (env.isDefEq fuel next T expected)).relabel ρ id := by
        rw [hconv, relabel_ofOption, Option.map_id]
        rfl
      refine relabel_bind hanswer fun answer _ => ?_
      cases answer <;> rfl

/-! ## The same answers -/

lemma renumber_eq_self (hnext : n ≤ next) (next' : Nat) (hx : x.number < n) : Id.renumber next next' x = x :=
  if_pos (lt_of_lt_of_le hx hnext)

lemma relabel_renumber (hnext : n ≤ next) (next' : Nat) (hm : m.In (env.declared (·.number < n)) k) :
    m.relabel (Id.renumber next next') id = m :=
  (relabel_congr id hm fun _ hx => renumber_eq_self hnext next' hx).trans (relabel_id m)

lemma context_relabel_renumber (hnext : n ≤ next) (next' : Nat) (hΓ : Γ.In (env.declared (·.number < n))) :
    Γ.relabel (Id.renumber next next') = Γ := by
  have hlocals : ∀ x ∈ Γ.locals, x.relabel (Id.renumber next next') = x := by
    intro x hx
    obtain ⟨hid, k, htype⟩ := hΓ x hx
    exact congrArg₂ (Local.mk · x.name ·) (renumber_eq_self hnext next' hid) (relabel_renumber hnext next' htype)
  exact congrArg Context.mk ((map_congr_left hlocals).trans (map_id _))

/-- Additions are conservative: for terms and contexts that mention names declared in `env` only, the answers after any
successful operations are those in `env`, with the same fuel. If the two runs take their hypotheses from different
numbers, errors are the same after renumbering. -/
theorem additions_conservative (henv : Reachable env) (hadded : Relation.ReflTransGen Added env env')
    {n k k' : Nat} {Γ : Context} {a b : Term} (hΓ : Γ.In (env.declared (·.number < n)))
    (ha : a.In (env.declared (·.number < n)) k) (hb : b.In (env.declared (·.number < n)) k') {next next' : Nat}
    (hnext : n ≤ next) (hnext' : n ≤ next') (ps : List Name) (fuel : Nat) :
    env'.whnfCore fuel a = env.whnfCore fuel a ∧
    env'.whnf fuel a = env.whnf fuel a ∧
    env'.isDefEq fuel next' a b = env.isDefEq fuel next a b ∧
    env'.infer ps fuel next' Γ a = (env.infer ps fuel next Γ a).relabel (Id.renumber next next') id ∧
    env'.inferSort ps fuel next' Γ a = (env.inferSort ps fuel next Γ a).relabel (Id.renumber next next') id ∧
    env'.check ps fuel next' Γ a b = (env.check ps fuel next Γ a b).relabel (Id.renumber next next') id := by
  have hagrees := agrees_of_added henv hadded
  have hrelabels := hagrees.relabels henv (·.number < n)
  have hadmits := admits_declared henv (·.number < n)
  have hρ : Renumbering (env.declared (·.number < n)) next next' (Id.renumber next next') :=
    renumbering_renumber (fun _ hx => lt_of_lt_of_le hx hnext) fun _ hx => lt_of_lt_of_le hx hnext'
  have hkeepΓ := context_relabel_renumber hnext next' hΓ
  have hkeepA := relabel_renumber hnext next' ha
  have hkeepB := relabel_renumber hnext next' hb
  have halike := checksAlike henv hagrees ps fuel
  refine ⟨?_, ?_, ?_, ?_, ?_, ?_⟩
  · have h := hrelabels.whnfCore hadmits ha id fuel
    simpa only [relabel_id, Option.map_id_fun', id_eq] using h
  · have h := hrelabels.whnf hadmits ha id fuel
    simpa only [relabel_id, Option.map_id_fun', id_eq] using h
  · have h := isDefEq_relabel hrelabels hadmits hρ.toRenaming ha hb fuel
    rwa [hkeepA, hkeepB] at h
  · have h := halike.infer hρ hΓ ha
    rw [hkeepΓ, hkeepA] at h
    -- the type that is found mentions no hypothesis of a binder
    have htype : ∀ T, (env.infer ps fuel next Γ a).Yields T → T.relabel (Id.renumber next next') id = T := by
      intro T hT
      obtain ⟨j, hTin⟩ := (infers_of_infer hT).type_declared henv hΓ ha
      exact relabel_renumber hnext next' hTin
    exact h.trans (relabel_congr htype)
  · have h := halike.inferSort hρ hΓ ha
    rwa [hkeepΓ, hkeepA] at h
  · have h := halike.check hρ hΓ ha hb
    rwa [hkeepΓ, hkeepA, hkeepB] at h

/-- In the context `x : N`, a function that applies its own argument. -/
def numberSelfApplied : Term :=
  .lam ⟨"y"⟩ (.const ⟨"N"⟩ []) (.app (.var 0) (.free ⟨0, some ⟨"x"⟩⟩))

/-- After doubling has been defined, a term without it is rejected as before, with number 5 in place of 1. -/
theorem self_application_rejected_alike : ∃ env env', Reachable env ∧ Relation.ReflTransGen Added env env' ∧
    env.get? ⟨"double"⟩ = none ∧ (env'.get? ⟨"double"⟩).isSome ∧
    ∃ Γ : Context, Γ.In (env.declared (·.number < 1)) ∧ numberSelfApplied.In (env.declared (·.number < 1)) 0 ∧
      numberZero.In (env.declared (·.number < 1)) 0 ∧
      env'.infer [] 20 5 Γ numberSelfApplied =
        (env.infer [] 20 1 Γ numberSelfApplied).relabel (Id.renumber 1 5) id ∧
      ∃ e, env'.infer [] 20 5 Γ numberSelfApplied = throw e ∧
        e.term = .app (.free ⟨5, some ⟨"y"⟩⟩) (.free ⟨0, some ⟨"x"⟩⟩) := by
  let Γ : Context := ⟨[.new 0 ⟨"x"⟩ (.const ⟨"N"⟩ [])]⟩
  have hadd : ∃ env env', (({} : Env).addInductive 20 0 numbers).Yields env ∧
      (env.addDefinition 20 0 ⟨"double"⟩ [] (.arrow (.const ⟨"N"⟩ []) (.const ⟨"N"⟩ []))
        numberDouble).Yields env' ∧
      env.get? ⟨"double"⟩ = none ∧ (env'.get? ⟨"double"⟩).isSome ∧ (env.get? ⟨"N"⟩).isSome ∧
      ∃ e, env'.infer [] 20 5 Γ numberSelfApplied = throw e ∧
        e.term = .app (.free ⟨5, some ⟨"y"⟩⟩) (.free ⟨0, some ⟨"x"⟩⟩) :=
    ⟨_, _, rfl, rfl, rfl, rfl, rfl, _, rfl, rfl⟩
  obtain ⟨env, env', hN, hdouble, hnew, hold, hdeclared, herror⟩ := hadd
  have henv : Reachable env := .single (.family numbers_below hN)
  have hadded : Relation.ReflTransGen Added env env' := .single (added_numberDouble hdouble)
  have hΓ : Γ.In (env.declared (·.number < 1)) := by
    intro x hx
    obtain rfl := mem_singleton.mp hx
    exact ⟨zero_lt_one, 0, hdeclared⟩
  have hself : numberSelfApplied.In (env.declared (·.number < 1)) 0 := ⟨hdeclared, zero_lt_one, zero_lt_one⟩
  have hzero : numberZero.In (env.declared (·.number < 1)) 0 := hdeclared
  have hsame := additions_conservative henv hadded hΓ hself hzero (le_refl 1)
    (show 1 ≤ 5 by decide) [] 20
  exact ⟨env, env', henv, hadded, hnew, hold, Γ, hΓ, hself, hzero, hsame.2.2.2.1, herror⟩

end Env

end ProofAssistant
