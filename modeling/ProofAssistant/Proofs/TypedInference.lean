import ProofAssistant.Proofs.SubjectReduction

/-!
# Inferred types

What the checker finds is derivable in the declarative type system (`Env.Infers.hasType`). Each rule of the checker
becomes the rule for the same kind of term, between conversions. The conversion test is sound on terms that mention only
what is declared, so it is shown first that inferred types do so (`Env.Infers.type_in_scope`).

Under the strict rules each conversion has to lead to a type, and `Env.Supports` asks for more in this case.
-/

namespace ProofAssistant

variable {x : Local}

lemma Context.get?_add_of_fresh {Γ : Context} (hx : x.id ∉ Γ.ids) {y : Id} {h : Local} (hget : Γ.get? y = some h) :
    (Γ.add x).get? y = some h := by
  have hne : x.id ≠ y := fun heq => hx (heq ▸ mem_ids_of_get? hget)
  rw [get?_add, if_neg hne, hget]

lemma Context.below_add {Γ : Context} {next : Nat} (hnext : ∀ y ∈ Γ.ids, y.number < next) (hx : x.id.number = next) :
    ∀ y ∈ (Γ.add x).ids, y.number < next + 1 := by
  intro y hy
  rw [mem_ids_add] at hy
  rcases hy with hy | rfl
  · exact Nat.lt_succ_of_lt (hnext y hy)
  · exact hx ▸ Nat.lt_succ_self next

namespace Env

variable {m T A B : Term} {next k : Nat} {l : Level}

open InductiveSpec

variable {env : Env} {strict : Prop} {ps : List Name} {Γ : Context}

/-! ## Inferred types are in scope -/

lemma in_scope_instantiate {qs : List Name} (hm : m.In (env.scope qs fun _ => False) 0) {ls : List Level}
    (hlen : qs.length = ls.length) (hls : ∀ l ∈ ls, l.Admitted ps) (P : Id → Prop) :
    (m.instantiateLevelParams qs ls).In (env.scope ps P) 0 := by
  have hadmitted : ∀ ls' : List Level, (∀ l ∈ ls', l.Admitted qs) →
      ∀ l ∈ ls'.map (·.instantiateParams qs ls), l.Admitted ps := by
    intro ls' hls' l hl
    obtain ⟨l', hl', rfl⟩ := List.mem_map.mp hl
    exact (hls' l' hl').instantiateParams hlen hls
  rw [Term.instantiateLevelParams_eq_mapLevels]
  refine hm.mapLevels (fun _ h => h.elim) (fun _ h => h) (fun l hl => hl.instantiateParams hlen hls) ?_ ?_
  · rintro c ls' ⟨⟨d, hd, hlen'⟩, hls'⟩
    exact ⟨⟨d, hd, by simpa using hlen'⟩, hadmitted ls' hls'⟩
  · rintro n i ls' ⟨⟨t, ht, hi, hlen'⟩, hls'⟩
    exact ⟨⟨t, ht, hi, by simpa using hlen'⟩, hadmitted ls' hls'⟩

lemma Scoped.admits_scope (henv : env.Scoped) (ps : List Name) (P : Id → Prop) : env.Admits (env.scope ps P) := by
  rintro c ls d v n hget hkind hlen ⟨_, hls⟩
  have hv : v ∈ d.terms := by simp [Decl.terms, hkind]
  exact in_scope_instantiate (henv.terms d (List.mem_of_find?_eq_some hget) v hv) hlen hls P

/-- The types of the hypotheses mention earlier hypotheses and what is declared. -/
def ContextIn (env : Env) (ps : List Name) (Γ : Context) : Prop :=
  ∀ x h, Γ.get? x = some h → h.type.In (env.scope ps (· ∈ Γ.ids)) 0

lemma ContextIn.inScope (hΓ : env.ContextIn ps Γ) : Γ.Scoped := by
  intro x h hget
  exact (hΓ x h hget).widen (Scope.le_of_free fun _ h => h)

lemma ContextIn.add (hΓ : env.ContextIn ps Γ) (hx : x.type.In (env.scope ps (· ∈ Γ.ids)) 0) :
    env.ContextIn ps (Γ.add x) := by
  intro y h hget
  have hle : (env.scope ps (· ∈ Γ.ids)).Le (env.scope ps (· ∈ (Γ.add x).ids)) :=
    { free := fun z (hz : z ∈ Γ.ids) => by simpa using .inl hz }
  rw [Context.get?_add] at hget
  split at hget
  · obtain rfl := Option.some.inj hget
    exact hx.widen hle
  · exact (hΓ y h hget).widen hle

/-- An inferred type mentions hypotheses of the context and what is declared. -/
lemma Infers.type_in_scope (henv : env.Scoped) (h : env.Infers ps next Γ m T) (hΓ : env.ContextIn ps Γ)
    (hm : m.In { free := fun x => x.number < next } k) : T.In (env.scope ps (· ∈ Γ.ids)) 0 := by
  have hsort {fuel : Nat} {P : Id → Prop} {S : Term} {l : Level} (hS : S.In (env.scope ps P) 0)
      (hwhnf : env.whnf fuel S = some (.sort l)) : l.Admitted ps :=
    (steps_of_whnf hwhnf).in_scope (henv.admits_scope ps P) hS
  induction h generalizing k with
  | free hget => exact hΓ _ _ hget
  | sort hl => exact hl
  | const hget _ hlen hls =>
    exact in_scope_instantiate (henv.terms _ (List.mem_of_find?_eq_some hget) _ (Decl.type_mem_terms _)) hlen hls _
  | ctor ht hk hlen hls =>
    exact in_scope_instantiate (henv.ctors _ _ ht _ (List.mem_of_getElem? hk)) hlen hls _
  | app _ hwhnf ha _ ihf _ =>
    have hpi := (steps_of_whnf hwhnf).in_scope (henv.admits_scope ps _) (ihf hΓ hm.1)
    exact hpi.2.instantiate (ha.in_scope hm.2)
  | @lam next _ Γ x t b S B l ht _ _ _ ihb =>
    have htIn := ht.in_scope hm.1
    have hB := ihb (hΓ.add htIn) (below_opened hm.2 x t)
    refine ⟨htIn, hB.close.widen { free := fun y hy => ?_ }⟩
    obtain ⟨hy, hne⟩ : y ∈ (Γ.add (.new next x t)).ids ∧ y ≠ (Local.new next x t).id := hy
    show y ∈ Γ.ids
    simpa [hne] using hy
  | @pi next _ _ Γ x _ t b _ _ _ _ ht hwhnf _ hwhnf' iht ihb =>
    have hS' := ihb (hΓ.add (ht.in_scope hm.1)) (below_opened hm.2 x t)
    exact Level.admitted_imax.mpr ⟨hsort (iht hΓ hm.1) hwhnf, hsort hS' hwhnf'⟩

/-! ## Contexts that grow -/

lemma ContextTyped.add (henv : env.Scoped) (hΓ : env.ContextTyped ps Γ) (hx : x.id ∉ Γ.ids)
    (htype : env.IsType ps Γ [] x.type) : env.ContextTyped ps (Γ.add x) := by
  have hweaken {T : Term} (hT : env.IsType ps Γ [] T) : env.IsType ps (Γ.add x) [] T := by
    obtain ⟨l, hl⟩ := hT
    exact ⟨l, hl.weaken henv hΓ.inScope fun _ _ => Context.get?_add_of_fresh hx⟩
  intro y h hget
  rw [Context.get?_add] at hget
  split at hget
  · obtain rfl := Option.some.inj hget
    exact hweaken htype
  · exact hweaken (hΓ y h hget)

/-! ## Inferred types are derivable -/

/-- What the rules ask of an environment: that it is well typed and that its recursors keep types, if the
rules are strict. -/
structure Supports (env : Env) (strict : Prop) : Prop where
  inScope : env.Scoped
  typed : strict → env.WellTyped
  iota : strict → env.IotaTyped

lemma HasType.conv_if {Δ : List Term} (h : env.HasType strict ps Γ Δ m A) (hconv : env.Conv A B)
    (hB : strict → env.IsType ps Γ Δ B) : env.HasType strict ps Γ Δ m B := by
  by_cases hs : strict
  · obtain ⟨l, hl⟩ := hB hs
    exact .conv h hconv fun _ => eq_true hs ▸ hl
  · exact .conv (l := .zero) h hconv fun h => absurd h hs

lemma HasType.conv_steps (henv : env.Supports strict) (hΓ : strict → env.ContextTyped ps Γ)
    (h : env.HasType strict ps Γ [] m A) (hsteps : env.Steps A B) : env.HasType strict ps Γ [] m B := by
  refine h.conv_if (.of_steps hsteps) fun hs => ?_
  obtain rfl : strict = True := eq_true hs
  have hΔ : env.BindersTyped ps Γ [] := trivial
  obtain ⟨l, hl⟩ := h.valid (henv.typed hs) (hΓ hs) hΔ
  exact ⟨l, hl.steps (henv.typed hs) (henv.iota hs) (hΓ hs) hΔ hsteps⟩

/-- A context that the checker is run in: its types are in scope, and types if the rules are strict. -/
structure ContextFor (env : Env) (strict : Prop) (ps : List Name) (next : Nat) (Γ : Context) : Prop where
  inScope : env.ContextIn ps Γ
  typed : strict → env.ContextTyped ps Γ
  below : ∀ x ∈ Γ.ids, x.number < next

lemma ContextFor.fresh (hΓ : env.ContextFor strict ps next Γ) (x : Name) (t : Term) :
    (Local.new next x t).id ∉ Γ.ids :=
  fun hmem => Nat.lt_irrefl _ (hΓ.below _ hmem)

lemma ContextFor.add (henv : env.Scoped) (hΓ : env.ContextFor strict ps next Γ) (x : Name) {t : Term}
    (htIn : t.In (env.scope ps (· ∈ Γ.ids)) 0) (ht : env.HasType strict ps Γ [] t (.sort l)) :
    env.ContextFor strict ps (next + 1) (Γ.add (.new next x t)) where
  inScope := hΓ.inScope.add htIn
  typed hs := (hΓ.typed hs).add henv (hΓ.fresh x t) ⟨l, eq_true hs ▸ ht⟩
  below := Context.below_add hΓ.below rfl

/-- The hypothesis that a body was opened with becomes the variable of the binder again. -/
lemma HasType.close_binder (henv : env.Scoped) (hΓ : env.ContextFor strict ps next Γ) {x : Name} {t b : Term}
    (hb : b.In { free := fun x => x.number < next } (k + 1)) (ht : env.HasType strict ps Γ [] t (.sort l))
    (hbody : env.HasType strict ps (Γ.add (.new next x t)) [] (b.instantiate (Local.new next x t).term) B) :
    env.HasType strict ps Γ [t] b (B.replace (.abstracted (Local.new next x t).id)) := by
  have habs := hbody.abstract henv hΓ.inScope.inScope (hΓ.fresh x t) ht.in_scope
  rwa [Local.term, Term.replace_abstracted hb (Nat.lt_irrefl next)] at habs

/-- A type that passes the test against an inferred type is convertible to it. -/
lemma Infers.conv_of_isDefEq (henv : env.Scoped) {fuel : Nat} (h : env.Infers ps next Γ m A)
    (hΓ : env.ContextFor strict ps next Γ) (hm : m.In { free := fun x => x.number < next } k)
    (hT : T.In (env.scope ps (· ∈ Γ.ids)) 0) (htest : env.isDefEq fuel next A T = some true) : env.Conv A T := by
  have hle := env.scope_le_arityScope ps hΓ.below
  exact (testSound henv fuel).1 next A T 0 0 ((h.type_in_scope henv hΓ.inScope hm).widen hle)
    (hT.widen hle) htest

/-- The type that the checker finds is one of the term. -/
lemma Infers.hasType (henv : env.Supports strict) (h : env.Infers ps next Γ m T)
    (hΓ : env.ContextFor strict ps next Γ) (hm : m.In { free := fun x => x.number < next } k) :
    env.HasType strict ps Γ [] m T := by
  have hscoped := henv.inScope
  induction h generalizing k with
  | free hget => exact .free hget
  | sort hl => exact .sort hl
  | const hget hkind hlen hls =>
    exact .const (List.mem_of_find?_eq_some hget) (name_of_get? hget) hkind hlen hls
  | ctor ht hk hlen hls => exact .ctor ht hk hlen hls
  | @app next _ _ Γ f a F A t b x i hf hwhnf ha htest ihf iha =>
    have hsteps := steps_of_whnf hwhnf
    have hpi := (ihf hΓ hm.1).conv_steps henv hΓ.typed hsteps
    have hpiIn := hsteps.in_scope (hscoped.admits_scope ps _) (hf.type_in_scope hscoped hΓ.inScope hm.1)
    have hconv := ha.conv_of_isDefEq hscoped hΓ hm.2 hpiIn.1 htest
    -- The domain of a product that is the type of a term is a type.
    refine .app hpi ((iha hΓ hm.2).conv_if hconv fun hs => ?_)
    obtain rfl : strict = True := eq_true hs
    have hΔ : env.BindersTyped ps Γ [] := trivial
    obtain ⟨_, hl⟩ := hpi.valid (henv.typed hs) (hΓ.typed hs) hΔ
    obtain ⟨l, _, ht, _⟩ := hl.pi_inv
    exact ⟨l, ht⟩
  | @lam next _ Γ x t b S B l ht hwhnf hb iht ihb =>
    have ht' := (iht hΓ hm.1).conv_steps henv hΓ.typed (steps_of_whnf hwhnf)
    have hΓ' := hΓ.add hscoped x (ht.in_scope hm.1) ht'
    have hbody := ihb hΓ' (below_opened hm.2 x t)
    rw [Term.close_eq_abstracted (hb.type_in_scope hscoped hΓ'.inScope (below_opened hm.2 x t))]
    exact .lam ht' (ht'.close_binder hscoped hΓ hm.2 hbody)
  | @pi next _ _ Γ x i t b S S' l l' ht hwhnf _ hwhnf' iht ihb =>
    have ht' := (iht hΓ hm.1).conv_steps henv hΓ.typed (steps_of_whnf hwhnf)
    have hΓ' := hΓ.add hscoped x (ht.in_scope hm.1) ht'
    have hbody := (ihb hΓ' (below_opened hm.2 x t)).conv_steps henv hΓ'.typed (steps_of_whnf hwhnf')
    exact .pi ht' (ht'.close_binder hscoped hΓ hm.2 hbody)

lemma InfersSort.hasType (henv : env.Supports strict) (h : env.InfersSort ps next Γ m l)
    (hΓ : env.ContextFor strict ps next Γ) (hm : m.In { free := fun x => x.number < next } k) :
    env.HasType strict ps Γ [] m (.sort l) := by
  obtain ⟨S, fuel, hS, hwhnf⟩ := h
  exact (hS.hasType henv hΓ hm).conv_steps henv hΓ.typed (steps_of_whnf hwhnf)

lemma Checks.hasType (henv : env.Supports strict) (h : env.Checks ps next Γ m T)
    (hΓ : env.ContextFor strict ps next Γ) (hm : m.In { free := fun x => x.number < next } k)
    (hTIn : T.In (env.scope ps (· ∈ Γ.ids)) 0) (hT : strict → env.IsType ps Γ [] T) :
    env.HasType strict ps Γ [] m T := by
  obtain ⟨A, fuel, hA, htest⟩ := h
  exact (hA.hasType henv hΓ hm).conv_if (hA.conv_of_isDefEq henv.inScope hΓ hm hTIn htest) hT

lemma ContextFor.nil (next : Nat) : env.ContextFor strict ps next {} where
  inScope _ _ hget := nomatch hget
  typed _ _ _ hget := nomatch hget
  below _ hx := nomatch hx

end Env

end ProofAssistant
