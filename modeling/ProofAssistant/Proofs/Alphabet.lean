import ProofAssistant.Proofs.Foundation
import ProofAssistant.Proofs.Invariants
import ProofAssistant.Proofs.Places

/-!
# What terms are made of

An `Alphabet` says which constants, constructors and holes may occur in terms, whatever their hypotheses, indices and
levels are, and `Term.Over A m` that `m` is made of them. All operations on terms stay over an alphabet, and so does
reduction if the values of definitions are over it (`Alphabet.CoversEnv`). The elaborator keeps all that it knows over
an alphabet (`Alphabet.invariant`), and what it has solved stays solved (`Metas.Grows`).
-/

namespace ProofAssistant

open List Fueled Term Option Env

variable {s : Supply} {Γ : Context} {g : Goal} {μ : Metas} {m : Term} {h : Id}
variable {x y : Local} {xs : List Local} {v body pattern type : Term} {μ₀ : Metas}

/-- The constants, families and holes that terms may be made of. Holes from some number on always belong to them. -/
structure Alphabet where
  const : Name → Prop := fun _ => True
  family : Name → Prop := fun _ => True
  hole : Id → Prop := fun _ => True
  /-- Holes may be deferred. -/
  deferred : Prop := True
  start : Nat := 0
  new_hole : ∀ h, start ≤ h.number → hole h := by exact fun _ _ => trivial
  /-- The holes that may occur without being deferred. -/
  bare : Id → Prop := fun _ => True
  new_bare : ∀ h, start ≤ h.number → bare h := by exact fun _ _ => trivial
  /-- Goals may have numbers that are yet to be handed out. -/
  early : Prop := True

variable {A : Alphabet}

lemma mem_of_lookup_eq_some {α β : Type} [BEq α] [LawfulBEq α] {l : List (α × β)} {a : α} {b : β}
    (h : l.lookup a = some b) : (a, b) ∈ l := by
  obtain ⟨l₁, l₂, rfl, _⟩ := lookup_eq_some_iff.mp h
  exact mem_append_right _ mem_cons_self

namespace Term

variable {m : Term} {as : List Term} {value : Id → Option Term} {xs : List Local}

/-- The term is made of what the alphabet has. -/
def Over (A : Alphabet) : Term → Prop
  | .const c _ => A.const c
  | .ctor t _ _ _ => A.family t
  | .hole h deferred => A.hole h ∧ (deferred = true → A.deferred) ∧ (deferred = false → A.bare h)
  | .app f a => f.Over A ∧ a.Over A
  | .lam _ t b | .pi _ _ t b => t.Over A ∧ b.Over A
  | .var _ | .sort _ | .free _ => True

lemma leafwise_over (A : Alphabet) : Leafwise fun _ m => m.Over A :=
  ⟨.rfl, .rfl, .rfl⟩

lemma Over.app {f a : Term} (hf : f.Over A) (ha : a.Over A) : (f.app a).Over A :=
  ⟨hf, ha⟩

lemma over_apply : (m.apply as).Over A ↔ m.Over A ∧ ∀ a ∈ as, a.Over A := by
  induction as generalizing m with
  | nil => simp
  | cons a as ih => rw [apply_cons, ih, Over, forall_mem_cons, and_assoc]

lemma Over.head_args (h : m.Over A) : m.head.Over A ∧ ∀ a ∈ m.args, a.Over A := by
  rwa [← over_apply, apply_head_args]

@[simp] lemma over_rename (ξ : Nat → Nat) (m : Term) : (m.rename ξ).Over A ↔ m.Over A := by
  induction m generalizing ξ with
  | app f a ihf iha => simp only [rename, Over, ihf, iha]
  | lam x t b iht ihb | pi x _ t b iht ihb => simp only [rename, Over, iht, ihb]
  | _ => rfl

@[simp] lemma over_lift (n k : Nat) (m : Term) : (m.lift n k).Over A ↔ m.Over A := by
  rw [lift_eq_rename, over_rename]

@[simp] lemma over_mapLevels (f : Level → Level) (m : Term) : (m.mapLevels f).Over A ↔ m.Over A := by
  induction m with
  | app g a ihg iha => simp only [mapLevels, Over, ihg, iha]
  | lam x t b iht ihb | pi x _ t b iht ihb => simp only [mapLevels, Over, iht, ihb]
  | _ => rfl

@[simp] lemma over_instantiateLevelParams (ps : List Name) (ls : List Level) (m : Term) :
    (m.instantiateLevelParams ps ls).Over A ↔ m.Over A := by
  rw [instantiateLevelParams_eq_mapLevels, over_mapLevels]

/-- Terms over an alphabet may be put for indices and hypotheses. -/
lemma Over.replace {s : Replacement} (hm : m.Over A) (hvar : ∀ i, (s.var i).Over A) (hfree : ∀ x, (s.free x).Over A) :
    (m.replace s).Over A := by
  induction m generalizing s with
  | var i => exact hvar i
  | free x => exact hfree x
  | app f a ihf iha => exact ⟨ihf hm.1 hvar hfree, iha hm.2 hvar hfree⟩
  | lam x t b iht ihb | pi x _ t b iht ihb =>
    refine ⟨iht hm.1 hvar hfree, ihb hm.2 (fun i => ?_) fun y => (over_rename ..).mpr (hfree y)⟩
    cases i with
    | zero => trivial
    | succ i => exact (over_rename ..).mpr (hvar i)
  | _ => exact hm

lemma Over.instantiate {b a : Term} (hb : b.Over A) (ha : a.Over A) : (b.instantiate a).Over A := by
  rw [instantiate_eq_replace]
  refine hb.replace (fun i => ?_) fun _ => trivial
  cases i with
  | zero => exact ha
  | succ i => trivial

lemma Over.close (hm : m.Over A) (xs : List Id) (k : Nat) : (m.close xs k).Over A := by
  rw [close_eq_replace]
  refine hm.replace (fun _ => trivial) fun x => ?_
  simp only [Replacement.closing]
  split <;> trivial

lemma Over.substFree (hm : m.Over A) (hvalue : ∀ x v, value x = some v → v.Over A) : (m.substFree value).Over A := by
  rw [substFree_eq_mapVars value 0]
  refine (leafwise_over A).imp (Q := fun k m => (m.mapVars _ _ k).Over A) ⟨.rfl, .rfl, .rfl⟩ (fun _ m hleaf hm => ?_) hm
  cases m with
  | free x =>
    cases hx : value x with
    | none => simp [mapVars, hx, Over]
    | some v => simpa [mapVars, hx] using hvalue x v hx
  | app | lam | pi => exact hleaf.elim
  | _ => exact hm

lemma Over.subst {values : List (Id × Term)} (hm : m.Over A) (hvalues : ∀ p ∈ values, p.2.Over A) :
    (m.subst values).Over A :=
  hm.substFree fun x v hx => hvalues (x, v) (mem_of_lookup_eq_some hx)

lemma Over.beta (hm : m.Over A) (has : ∀ a ∈ as, a.Over A) : (m.beta as).Over A := by
  fun_induction Term.beta m as with
  | case1 x t b a as ih =>
    rw [List.forall_mem_cons] at has
    exact ih (hm.2.instantiate has.1) has.2
  | case2 m as h => exact over_apply.mpr ⟨hm, has⟩

private lemma over_bindAll {bind : Local → Term → Term → Term}
    (hbind : ∀ x t b, t.Over A → b.Over A → (bind x t b).Over A) {before : List Id} (hxs : ∀ x ∈ xs, x.type.Over A)
    (hm : m.Over A) : (bindAll bind before xs m).Over A := by
  induction xs generalizing before with
  | nil => exact hm
  | cons x xs ih =>
    rw [forall_mem_cons] at hxs
    exact hbind _ _ _ (hxs.1.close before 0) (ih hxs.2)

lemma Over.abs (hm : m.Over A) (hxs : ∀ x ∈ xs, x.type.Over A) : (m.abs xs).Over A := by
  refine over_bindAll ?_ hxs (hm.close _ 0)
  exact fun _ _ _ ht hb => ⟨ht, hb⟩

lemma Over.pis (hm : m.Over A) (hxs : ∀ x ∈ xs, x.type.Over A) : (m.pis xs).Over A := by
  refine over_bindAll ?_ hxs (hm.close _ 0)
  exact fun _ _ _ ht hb => ⟨ht, hb⟩

/-! ## Holes -/

lemma Over.fillHolesApp (hm : m.Over A) (has : ∀ a ∈ as, a.Over A) (hvalue : ∀ h v, value h = some v → v.Over A) :
    (m.fillHolesApp value as).Over A := by
  fun_induction Term.fillHolesApp value m as with
  | case1 => exact over_apply.mpr ⟨hm, has⟩
  | case2 as h d v hv => exact (hvalue h v hv).beta has
  | case3 => exact over_apply.mpr ⟨hm, has⟩
  | case4 as f a _ iha ihf =>
    exact ihf hm.1 (List.forall_mem_cons.mpr ⟨iha hm.2 (by simp), has⟩)
  | case5 as x t b _ iht ihb | case6 as x i t b _ iht ihb =>
    exact over_apply.mpr ⟨⟨iht hm.1 (by simp), ihb hm.2 (by simp)⟩, has⟩
  | case7 => exact over_apply.mpr ⟨hm, has⟩

lemma Over.resolveHoles {depth : Nat} (hm : m.Over A) (hvalue : ∀ h v, value h = some v → v.Over A) :
    (m.resolveHoles value depth).Over A := by
  induction depth generalizing m with
  | zero => exact hm
  | succ depth ih =>
    refine hm.fillHolesApp (by simp) fun h v hv => ?_
    obtain ⟨w, hw, rfl⟩ := map_eq_some_iff.mp hv
    exact ih (hvalue h w hw)

/-- A hole is listed where it first occurs. -/
lemma holes_subset (m : Term) : m.holes ⊆ m.holeOccurrences := by
  suffices ∀ ps seen : List (Id × Bool),
      ps.foldl (fun seen h => if seen.any (·.1 == h.1) then seen else seen ++ [h]) seen ⊆ seen ++ ps from
    this m.holeOccurrences []
  intro ps
  induction ps with
  | nil => simp
  | cons p ps ih =>
    intro seen q hq
    have hq := ih _ hq
    dsimp only at hq
    split at hq <;> simp only [mem_append] at hq ⊢ <;> grind

lemma leafwise_holeOccurrences (R : Id × Bool → Prop) : Leafwise fun _ m => ∀ p ∈ m.holeOccurrences, R p := by
  have hfold : ∀ k m, holeOccurrences m = m.foldLeaves (· ++ ·) (fun _ => holeOccurrences) k := by
    refine eq_foldLeaves_of_flag (append_nil []) leafwise_hasHole (fun l _ h => ?_) fun k m => ?_
    · unfold holeOccurrences
      simp [h]
    · cases m <;> rfl
  constructor <;> intros <;> rw [hfold 0, foldLeaves, ← hfold, ← hfold, forall_mem_append]

section

variable (hm : m.Over A)
include hm

lemma Over.holeOccurrences : ∀ p ∈ m.holeOccurrences,
    A.hole p.1 ∧ (p.2 = true → A.deferred) ∧ (p.2 = false → A.bare p.1) := by
  refine (leafwise_over A).imp (leafwise_holeOccurrences _) (fun _ m hleaf hm => ?_) (k := 0) hm
  cases m <;> simp_all [IsLeaf, Over, Term.holeOccurrences]

lemma Over.holes : ∀ p ∈ m.holes,
    A.hole p.1 ∧ (p.2 = true → A.deferred) ∧ (p.2 = false → A.bare p.1) :=
  fun p hp => hm.holeOccurrences p (m.holes_subset hp)

/-! ## Parts of terms -/

lemma Over.closedSubterms : ∀ a ∈ m.closedSubterms, a.Over A := by
  have hroot : ∀ {m : Term} {below : List Term}, m.Over A → (∀ a ∈ below, a.Over A) →
      ∀ a ∈ if m.looseBound = 0 then m :: below else below, a.Over A := by
    intro m below hm hbelow
    split
    · exact forall_mem_cons.mpr ⟨hm, hbelow⟩
    · exact hbelow
  induction m with
  | app f a ihf iha => exact hroot hm fun c hc => (mem_append.mp hc).elim (ihf hm.1 c) (iha hm.2 c)
  | lam x t b iht ihb | pi x _ t b iht ihb =>
    exact hroot hm fun c hc => (mem_append.mp hc).elim (iht hm.1 c) (ihb hm.2 c)
  | _ => exact hroot hm (forall_mem_nil _)

lemma Over.abstractAt (pattern : Term) (selected : Nat → Bool) (depth seen : Nat) :
    (m.abstractAt pattern selected depth seen).1.Over A :=
  (leafwise_over A).abstractAt (leafwise_over A) (fun _ => trivial) (fun _ _ hm => (over_lift ..).mpr hm) hm

lemma Over.abstractOccurrences {occurrence : Option Nat}
    (h : m.abstractOccurrences pattern occurrence = some body) : body.Over A := by
  unfold Term.abstractOccurrences at h
  dsimp only at h
  generalize hb : m.abstractAt pattern _ 0 0 = r at h
  have hr : r.1.Over A := hb ▸ hm.abstractAt ..
  split at h
  all_goals
    split at h
    · obtain rfl := Option.some.inj h
      exact hr
    · simp at h

lemma Over.equation? {e : Equation} (h : m.equation? = some e) :
    e.type.Over A ∧ e.lhs.Over A ∧ e.rhs.Over A := by
  unfold Term.equation? at h
  split at h
  · rename_i hargs
    split at h
    · obtain rfl := Option.some.inj h
      simpa [hargs] using hm.head_args.2
    · simp at h
  · simp at h

end

end Term

/-! ## Hypotheses, goals and solutions -/

lemma Local.over_term (x : Local) : x.term.Over A :=
  trivial

lemma Local.over_terms (xs : List Local) : ∀ m ∈ xs.map Local.term, m.Over A :=
  forall_mem_map.mpr fun x _ => x.over_term

/-- The types of all hypotheses are over the alphabet. -/
def Context.Over (A : Alphabet) (Γ : Context) : Prop :=
  ∀ x ∈ Γ.locals, x.type.Over A

lemma Context.Over.add (h : Γ.Over A) (hx : x.type.Over A) : (Γ.add x).Over A := by
  intro y hy
  rcases mem_append.mp hy with hy | hy
  · exact h y hy
  · exact mem_singleton.mp hy ▸ hx

lemma Context.over_renameLast {old new : Name} (h : ∀ x ∈ xs, x.type.Over A) :
    ∀ x ∈ renameLast old new xs, x.type.Over A := by
  fun_induction renameLast old new xs with
  | case1 => exact h
  | case2 x xs _ ih =>
    rw [forall_mem_cons] at h ⊢
    exact ⟨h.1, ih h.2⟩
  | case3 x xs _ _ =>
    rw [forall_mem_cons] at h ⊢
    exact h
  | case4 => exact h

lemma Context.Over.push (h : Γ.Over A) (hx : x.type.Over A) : (Γ.push x).Over A := by
  unfold Context.push
  split
  · exact h.add hx
  · exact Context.Over.add (Context.over_renameLast h) hx

lemma Context.Over.pushAll (h : Γ.Over A) (hxs : ∀ x ∈ xs, x.type.Over A) : (Γ.pushAll xs).Over A := by
  induction xs generalizing Γ with
  | nil => exact h
  | cons x xs ih =>
    rw [forall_mem_cons] at hxs
    exact ih (h.push hxs.1) hxs.2

lemma Context.Over.get? (h : Γ.Over A) {x : Id} (hy : Γ.get? x = some y) : y.type.Over A :=
  h y (mem_reverse.mp (mem_of_find?_eq_some hy))

lemma Context.Over.find? (h : Γ.Over A) {n : Name} (hy : Γ.find? n = some y) : y.type.Over A :=
  h y (mem_reverse.mp (mem_of_find?_eq_some hy))

/-- The hypotheses and the target of the goal are over the alphabet. -/
structure Goal.Stated (A : Alphabet) (g : Goal) : Prop where
  context : g.context.Over A
  target : g.target.Over A

/-- The hole of the goal, which is not deferred, and its statement are over the alphabet. -/
structure Goal.Over (A : Alphabet) (g : Goal) : Prop extends g.Stated A where
  hole : A.hole g.id
  bare : A.bare g.id

lemma Goal.over_holeAs {deferred : Bool} (h : A.hole g.id) (hd : deferred = true → A.deferred)
    (hbare : deferred = false → A.bare g.id) : (g.holeAs deferred).Over A := by
  refine over_apply.mpr ⟨⟨h, hd, hbare⟩, fun a ha => ?_⟩
  obtain ⟨x, _, rfl⟩ := mem_map.mp ha
  trivial

lemma Goal.Over.openHole (h : g.Over A) : g.hole.Over A :=
  Goal.over_holeAs h.hole (by simp) fun _ => h.bare

lemma Goal.Stated.closedType (h : g.Stated A) : g.closedType.Over A :=
  h.target.pis h.context

/-- What was solved stays so, and what waited for an instance still waits if it has not been solved. -/
structure Metas.Grows (μ μ' : Metas) : Prop where
  solved : ∀ h, μ.isAssigned h = true → μ'.isAssigned h = true
  pending : ∀ g ∈ μ.pending, g ∈ μ'.pending ∨ μ'.isAssigned g.id = true

namespace Metas.Grows

variable {μ μ' μ'' : Metas}

lemma refl (μ : Metas) : μ.Grows μ :=
  ⟨fun _ h => h, fun _ h => .inl h⟩

lemma trans (h : μ.Grows μ') (h' : μ'.Grows μ'') : μ.Grows μ'' where
  solved z hz := h'.solved z (h.solved z hz)
  pending g hg := (h.pending g hg).elim (h'.pending g) fun hg => .inr (h'.solved g.id hg)

lemma empty (μ : Metas) : Metas.Grows {} μ where
  solved _ h := nomatch h
  pending _ h := nomatch h

lemma assign (h : μ.Grows μ') (z : Id) (v : Term) : μ.Grows (μ'.assign z v) := by
  refine h.trans ⟨fun z' hz' => ?_, fun _ hg => .inl hg⟩
  rw [isAssigned_assign, hz', Bool.or_true]

end Metas.Grows

/-- Solutions, and goals that wait for an instance, are over the alphabet. -/
structure Metas.Over (A : Alphabet) (μ : Metas) : Prop where
  holes : ∀ p ∈ μ.holes, p.2.Over A
  pending : ∀ g ∈ μ.pending, g.Over A

/-- Solutions over the alphabet that have grown out of earlier ones. -/
structure Metas.OverSince (A : Alphabet) (μ μ₀ : Metas) : Prop extends μ.Over A where
  grows : μ₀.Grows μ

lemma Metas.Over.instantiate (hμ : μ.Over A) (hm : m.Over A) : (μ.instantiate m).Over A := by
  have h : (m.resolveHoles (μ.holes.lookup ·) μ.holes.length).Over A :=
    hm.resolveHoles fun h v hv => hμ.holes (h, v) (mem_of_lookup_eq_some hv)
  unfold Metas.instantiate
  dsimp only
  split
  · exact h
  · exact (over_mapLevels ..).mpr h

lemma Metas.Over.assign (hμ : μ.Over A) (hv : v.Over A) : (μ.assign h v).Over A where
  holes := forall_mem_cons.mpr ⟨hv, hμ.holes⟩
  pending := hμ.pending

lemma Metas.OverSince.assign (hμ : μ.OverSince A μ₀) (hv : v.Over A) : (μ.assign h v).OverSince A μ₀ :=
  ⟨hμ.toOver.assign hv, hμ.grows.assign h v⟩

lemma Metas.OverSince.assignGoal (hμ : μ.OverSince A μ₀) (hg : g.Stated A) (hm : m.Over A) :
    (μ.assignGoal g m).OverSince A μ₀ :=
  hμ.assign (hm.abs hg.context)

/-- The statements of goals that have been declared for holes of the alphabet are over it. -/
def Supply.Stated (A : Alphabet) (s : Supply) : Prop :=
  ∀ g ∈ s.goals, A.hole g.id → g.Stated A

/-- Declared goals are stated over the alphabet, and no more identities are handed out below `n`. -/
structure Supply.OverFrom (A : Alphabet) (n : Nat) (s : Supply) : Prop where
  start : n ≤ s.next
  goals : s.Stated A
  numbers : A.early ∨ ∀ g ∈ s.goals, g.id.number < s.next

/-- Declared goals are stated over the alphabet, and it has all holes that are yet to be declared. -/
abbrev Supply.Over (A : Alphabet) (s : Supply) : Prop :=
  s.OverFrom A A.start

lemma Supply.id_of_goal? (hg : s.goal? h = some g) : g.id = h := by
  simpa using find?_some hg

lemma Supply.Stated.goal? (hs : s.Stated A) (hh : A.hole h) (hg : s.goal? h = some g) : g.Stated A :=
  hs g (mem_of_find?_eq_some hg) (Supply.id_of_goal? hg ▸ hh)

lemma Metas.Over.goalOf? (hμ : μ.Over A) (hs : s.Stated A) (hh : A.hole h) (hg : μ.goalOf? s h = some g) :
    g.Stated A := by
  obtain ⟨g', hg', rfl⟩ := map_eq_some_iff.mp hg
  have h := hs.goal? hh hg'
  exact ⟨h.context, hμ.instantiate h.target⟩

/-- What an open goal of a term was made of. -/
lemma Metas.of_mem_openGoals (hg : g ∈ μ.openGoals s m) :
    (g.id, false) ∈ (μ.instantiate m).holes ∧ μ.isAssigned g.id = false ∧ μ.goalOf? s g.id = some g := by
  obtain ⟨⟨h, d⟩, hh, hg⟩ := mem_filterMap.mp hg
  dsimp only at hg
  split at hg
  · rename_i hopen
    simp only [Bool.and_eq_true, Bool.not_eq_true'] at hopen
    obtain ⟨g', hg', rfl⟩ := map_eq_some_iff.mp hg
    have hid : g'.id = h := Supply.id_of_goal? hg'
    obtain ⟨rfl, hopen⟩ := hopen
    exact ⟨hid ▸ hh, hid ▸ hopen, hid ▸ hg⟩
  · simp at hg

lemma Metas.Over.openGoals (hμ : μ.Over A) (hs : s.Stated A) (hm : m.Over A) : ∀ g ∈ μ.openGoals s m, g.Over A := by
  intro g hg
  obtain ⟨hhole, -, hgoal⟩ := Metas.of_mem_openGoals hg
  obtain ⟨hA, -, hbare⟩ := (hμ.instantiate hm).holes _ hhole
  exact ⟨hμ.goalOf? hs hA hgoal, hA, hbare rfl⟩

/-- Everything known is over the alphabet, identities are handed out from `n` on, and no solution since `μ₀` is lost. -/
def Alphabet.invariantFrom (A : Alphabet) (n : Nat) (μ₀ : Metas) : Invariant where
  supply := Supply.OverFrom A n
  metas μ := μ.OverSince A μ₀

/-- The invariant from the number on from which the alphabet has all holes. -/
abbrev Alphabet.invariant (A : Alphabet) (μ₀ : Metas) : Invariant :=
  A.invariantFrom A.start μ₀

/-! ## Environments -/

/-- What the declarations of an environment put into a term is over the alphabet if the term is. -/
structure Alphabet.CoversEnv (A : Alphabet) (env : Env) : Prop where
  terms {c : Name} {d : Decl} : env.get? c = some d → A.const c → ∀ m ∈ d.terms, m.Over A
  ctors {n : Name} {t : InductiveType} : env.inductive? n = some t → A.family n →
    ∀ k ∈ t.ctors, k.type.Over A

namespace Alphabet.CoversEnv

variable {env : Env} {fuel : Nat} {m m' : Term}

section

variable (hA : A.CoversEnv env)
include hA

lemma contracts (h : env.Contracts m m') (hm : m.Over A) : m'.Over A := by
  cases h with
  | beta x t b a => exact hm.1.2.instantiate hm.2
  | @delta c ls d value height hget hkind _ =>
    rw [over_instantiateLevelParams]
    exact hA.terms hget hm value (by simp [Decl.terms, hkind])
  | iota _ _ _ _ _ hminor =>
    obtain ⟨hrec, hmajor⟩ := hm
    have hargs := (over_apply.mp hrec).2
    have hfields := (over_apply.mp hmajor).2
    refine over_apply.mpr ⟨hargs _ (mem_of_getElem? hminor), fun a ha => ?_⟩
    rcases mem_append.mp ha with ha | ha
    · exact hfields a (mem_append_right _ ha)
    · obtain ⟨⟨x, r⟩, hx, rfl⟩ := mem_map.mp ha
      have hx := (of_mem_zip (mem_filter.mp hx).1).1
      exact ⟨hrec, hfields x (mem_append_right _ hx)⟩

lemma step (h : env.Step m m') (hm : m.Over A) : m'.Over A := by
  induction h with
  | contract h => exact hA.contracts h hm
  | fn a _ ih => exact ⟨ih hm.1, hm.2⟩
  | arg f _ ih => exact ⟨hm.1, ih hm.2⟩

lemma steps (h : env.Steps m m') (hm : m.Over A) : m'.Over A := by
  induction h with
  | refl => exact hm
  | tail _ h ih => exact hA.step h ih

lemma whnf (h : env.whnf fuel m = some m') (hm : m.Over A) : m'.Over A :=
  hA.steps (steps_of_whnf h) hm

lemma whnfOf (hμ : μ.Over A) (h : env.whnfOf μ fuel m = some m') (hm : m.Over A) : m'.Over A :=
  hA.whnf h (hμ.instantiate hm)

lemma typeOf (hs : s.Stated A) (hμ : μ.Over A) {next : Nat} (hΓ : Γ.Over A) (hm : m.Over A)
    (h : (env.typeOf s μ fuel next Γ m).Yields type) : type.Over A := by
  induction fuel generalizing next Γ m type with
  | zero => exact absurd h not_yields_exhausted
  | succ fuel ih =>
    cases m with
    | var i => exact absurd h not_yields_throw
    | sort l => exact yields_pure.mp h ▸ trivial
    | free x =>
      simp only [typeOf] at h
      split at h
      · rename_i y hy
        exact yields_pure.mp h ▸ hΓ.get? hy
      · exact absurd h not_yields_throw
    | const c ls =>
      simp only [typeOf] at h
      split at h
      · rename_i d hd
        rw [← yields_pure.mp h, over_instantiateLevelParams]
        exact hA.terms hd hm d.type d.type_mem_terms
      · exact absurd h not_yields_throw
    | ctor n i name ls =>
      simp only [typeOf] at h
      split at h
      · rename_i t k hk
        obtain ⟨t', ht', hk⟩ := bind_eq_some_iff.mp hk
        obtain ⟨k', hk', heq⟩ := map_eq_some_iff.mp hk
        obtain ⟨rfl, rfl⟩ := Prod.mk.inj heq
        rw [← yields_pure.mp h, over_instantiateLevelParams]
        exact hA.ctors ht' hm _ (mem_of_getElem? hk')
      · exact absurd h not_yields_throw
    | app f a =>
      simp only [typeOf, yields_bind, yields_ofOption] at h
      obtain ⟨F, hF, F', hwhnf, h⟩ := h
      have hF' := hA.whnfOf hμ hwhnf (ih hΓ hm.1 hF)
      split at h
      · exact yields_pure.mp h ▸ hF'.2.instantiate hm.2
      · exact absurd h not_yields_throw
    | lam x t b =>
      simp only [typeOf, yields_bind] at h
      obtain ⟨B, hB, h⟩ := h
      have hbody : (b.instantiate (Local.new next x t).term).Over A := hm.2.instantiate (Local.over_term _)
      exact yields_pure.mp h ▸ ⟨hm.1, (ih (hΓ.push hm.1) hbody hB).close _ 0⟩
    | pi x i t b =>
      simp only [typeOf, yields_bind] at h
      obtain ⟨l, _, l', _, h⟩ := h
      exact yields_pure.mp h ▸ trivial
    | hole n d =>
      simp only [typeOf] at h
      split at h
      · rename_i g hg
        exact yields_pure.mp h ▸ (hμ.goalOf? hs hm.1 hg).closedType
      · exact absurd h not_yields_throw

end

end Alphabet.CoversEnv

end ProofAssistant
