import ProofAssistant.Proofs.Fuel
import ProofAssistant.Proofs.Relabelling
import ProofAssistant.Proofs.TypedInference

/-!
# Identities do not matter

Hypotheses are told apart by their identities. `Renaming` says when others may be taken: they are distinct, and their
numbers below the next one. Conversion then answers alike (`Env.isDefEq_relabel`), and a run of the checker is one for
the new identities (`Env.Infers.relabel`), also in an environment that continues the one it is in. So conversion is
symmetric also when its two runs open binders from different numbers (`Env.isDefEq_symmetric`).
-/

namespace ProofAssistant

open Term

variable {b : Term} {k k' : Nat}
variable {m a b' t : Term} {ps qs : List Name}

/-! ## Other identities -/

/-- The hypotheses of the scope get other identities, all distinct, with numbers below `next` and then below `next'`. -/
structure Renaming (S : Scope) (next next' : Nat) (ρ : Id → Id) : Prop where
  inj : ∀ x y, S.free x → S.free y → ρ x = ρ y → x = y
  source : ∀ x, S.free x → x.number < next
  target : ∀ x, S.free x → (ρ x).number < next'

namespace Renaming

variable {S : Scope} {next next' : Nat} {ρ : Id → Id}
variable {k : Nat}

/-- The new hypothesis of a binder gets the next identity on both sides. -/
def extend (ρ : Id → Id) (next next' : Nat) (hint : Option Name) : Id → Id :=
  Function.update ρ ⟨next, hint⟩ ⟨next', hint⟩

lemma extend_self (ρ : Id → Id) (next next' : Nat) (hint : Option Name) :
    extend ρ next next' hint ⟨next, hint⟩ = ⟨next', hint⟩ :=
  Function.update_self ..

section

variable (h : Renaming S next next' ρ)
include h

lemma extend_of_free (hint : Option Name) {x : Id} (hx : S.free x) :
    extend ρ next next' hint x = ρ x := by
  refine Function.update_of_ne (fun heq => ?_) _ _
  have := h.source x hx
  rw [heq] at this
  exact Nat.lt_irrefl _ this

lemma push (hint : Option Name) :
    Renaming (S.push ⟨next, hint⟩) (next + 1) (next' + 1) (extend ρ next next' hint) where
  inj := by
    have hnew : ∀ y, S.free y → extend ρ next next' hint y ≠ ⟨next', hint⟩ := by
      intro y hy heq
      have := h.target y hy
      rw [← h.extend_of_free hint hy, heq] at this
      exact Nat.lt_irrefl _ this
    rintro x y (hx | rfl) (hy | rfl) heq
    · rw [h.extend_of_free hint hx, h.extend_of_free hint hy] at heq
      exact h.inj x y hx hy heq
    · rw [extend_self] at heq
      exact absurd heq (hnew x hx)
    · rw [extend_self] at heq
      exact absurd heq.symm (hnew y hy)
    · rfl
  source := by
    rintro x (hx | rfl)
    · exact Nat.lt_succ_of_lt (h.source x hx)
    · exact Nat.lt_succ_self next
  target := by
    rintro x (hx | rfl)
    · rw [h.extend_of_free hint hx]
      exact Nat.lt_succ_of_lt (h.target x hx)
    · rw [extend_self]
      exact Nat.lt_succ_self next'

lemma of_free {S' : Scope} (hle : ∀ x, S'.free x → S.free x) :
    Renaming S' next next' ρ :=
  ⟨fun x y hx hy => h.inj x y (hle x hx) (hle y hy), fun x hx => h.source x (hle x hx),
    fun x hx => h.target x (hle x hx)⟩

lemma relabel_extend (hint : Option Name) (hm : m.In S k)
    (f : Level → Level) : m.relabel (extend ρ next next' hint) f = m.relabel ρ f :=
  relabel_congr f hm fun _ hx => h.extend_of_free hint hx

lemma relabel_opened (hint : Option Name) (hb : b.In S k) (f : Level → Level) :
    (b.instantiate (.free ⟨next, hint⟩)).relabel (extend ρ next next' hint) f =
      (b.relabel ρ f).instantiate (.free ⟨next', hint⟩) := by
  rw [relabel_instantiate, h.relabel_extend hint hb, relabel, extend_self]

lemma relabel_closed (hint : Option Name)
    (hm : m.In (S.push ⟨next, hint⟩) k) (f : Level → Level) : (m.close [⟨next, hint⟩] 0).relabel ρ f =
      (m.relabel (extend ρ next next' hint) f).close [⟨next', hint⟩] 0 := by
  rw [← h.relabel_extend hint hm.close_pushed f,
    relabel_close _ f hm fun y hy => (h.push hint).inj y _ hy (.inr rfl), extend_self]

end

end Renaming

/-- The hypotheses that are found in the context are in the scope, and so are their types. -/
def Context.FoundIn (S : Scope) (k : Nat) (Γ : Context) : Prop :=
  ∀ x h, Γ.get? x = some h → S.free x ∧ h.type.In S k

lemma Context.FoundIn.add {S : Scope} {Γ : Context} (h : Γ.FoundIn S k) {x : Local} (hx : x.type.In S k) :
    (Γ.add x).FoundIn (S.push x.id) k := by
  intro y z hget
  rw [get?_add] at hget
  split at hget
  · rename_i hy
    obtain rfl := Option.some.inj hget
    exact ⟨.inr hy.symm, hx.widen (S.le_push x.id)⟩
  · obtain ⟨hy, hz⟩ := h y z hget
    exact ⟨.inl hy, hz.widen (S.le_push x.id)⟩

/-! ## Conversion -/

namespace Renaming

variable {S : Scope} {next next' : Nat} {ρ : Id → Id}

lemma alphaEq_relabel (h : Renaming S next next' ρ) (ha : a.In S k) (hb : b.In S k') :
    (a.relabel ρ id).alphaEq (b.relabel ρ id) = a.alphaEq b := by
  induction a generalizing b k k' with
  | free x =>
    cases b with
    | free y =>
      have hiff : ρ x = ρ y ↔ x = y := ⟨h.inj x y ha hb, congrArg ρ⟩
      simp only [Term.relabel, Term.alphaEq, beq_eq_decide, hiff]
    | _ => rfl
  | app _ _ ih ih' | lam _ _ _ ih ih' | pi _ _ _ _ ih ih' =>
    cases b <;> first | rfl | simp only [Term.relabel, Term.alphaEq, ih ha.1 hb.1, ih' ha.2 hb.2]
  | const c ls | ctor t i c ls => cases b <;> simp [Term.relabel, Term.alphaEq]
  | _ => cases b <;> rfl

lemma headsEq_relabel (h : Renaming S next next' ρ) (ha : a.In S k) (hb : b.In S k') :
    Env.headsEq (a.relabel ρ id) (b.relabel ρ id) = Env.headsEq a b := by
  cases a with
  | free x =>
    cases b with
    | free y =>
      have hiff : ρ x = ρ y ↔ x = y := ⟨h.inj x y ha hb, congrArg ρ⟩
      simp only [Term.relabel, Env.headsEq, beq_eq_decide, hiff]
    | _ => rfl
  | const c ls | ctor t i c ls => cases b <;> simp [Term.relabel, Env.headsEq]
  | _ => cases b <;> rfl

end Renaming

namespace Env

variable {S : Scope} {a m b T : Term} {next next' k : Nat}

lemma Relabels.push {env env' : Env} {f : Level → Level} (h : env.Relabels env' S f) (x : Id) :
    env.Relabels env' (S.push x) f :=
  ⟨h.recursor, h.height, h.unfold⟩

/-- The tests answer alike for terms and for the same terms with other identities. -/
def TestRenamed (env env' : Env) (test test' : Nat → Term → Term → Option Bool) : Prop :=
  ∀ (S : Scope) (ρ : Id → Id) (next next' k k' : Nat) (a b : Term), env.Relabels env' S id → env.Admits S →
    Renaming S next next' ρ → a.In S k → b.In S k' →
    test' next' (a.relabel ρ id) (b.relabel ρ id) = test next a b

variable {env env' : Env} {test test' : Nat → Term → Term → Option Bool}

section

variable {S : Scope} {ρ : Id → Id} {next next' k k' : Nat}
variable {b : Term}

section

variable (htest : TestRenamed env env' test test')
include htest

lemma TestRenamed.spinesEq (henv : env.Relabels env' S id)
    (hS : env.Admits S) (hρ : Renaming S next next' ρ) (ha : a.In S k) (hb : b.In S k') :
    spinesEq (test' next') (a.relabel ρ id) (b.relabel ρ id) = spinesEq (test next) a b := by
  have hpairs : ∀ as bs : List Term, (∀ a ∈ as, a.In S k) → (∀ b ∈ bs, b.In S k') →
      allPairs (test' next') (as.map (·.relabel ρ id)) (bs.map (·.relabel ρ id)) =
        allPairs (test next) as bs := by
    intro as
    induction as with
    | nil => exact fun _ _ _ => rfl
    | cons a as ih =>
      intro bs has hbs
      cases bs with
      | nil => rfl
      | cons b bs =>
        obtain ⟨ha, has⟩ := List.forall_mem_cons.mp has
        obtain ⟨hb, hbs⟩ := List.forall_mem_cons.mp hbs
        simp only [List.map_cons, allPairs, htest S ρ next next' k k' a b henv hS hρ ha hb, ih bs has hbs]
  obtain ⟨haHead, haArgs⟩ := ha.head_args
  obtain ⟨hbHead, hbArgs⟩ := hb.head_args
  simp only [Env.spinesEq, args_relabel, head_relabel, List.length_map,
    hρ.headsEq_relabel haHead hbHead, hpairs _ _ haArgs hbArgs]

/-- Bodies that are opened with the same new hypothesis. -/
lemma TestRenamed.bodies (henv : env.Relabels env' S id)
    (hS : env.Admits S) (hρ : Renaming S next next' ρ) (hb : b.In S (k + 1)) (hb' : b'.In S (k' + 1)) :
    test' (next' + 1) ((b.relabel ρ id).instantiate (.free ⟨next', none⟩))
      ((b'.relabel ρ id).instantiate (.free ⟨next', none⟩)) =
    test (next + 1) (b.instantiate (.free ⟨next, none⟩)) (b'.instantiate (.free ⟨next, none⟩)) := by
  have hopen : ∀ {k : Nat} {b : Term}, b.In S (k + 1) →
      (b.instantiate (.free ⟨next, none⟩)).In (S.push ⟨next, none⟩) k := fun hb =>
    (hb.widen (S.le_push _)).instantiate (.inr rfl)
  rw [← hρ.relabel_opened none hb, ← hρ.relabel_opened none hb']
  exact htest _ _ _ _ k k' _ _ (henv.push _) (hS.push _) (hρ.push none) (hopen hb) (hopen hb')

/-- A body against a term that is applied to the new hypothesis. -/
lemma TestRenamed.eta (henv : env.Relabels env' S id) (hS : env.Admits S)
    (hρ : Renaming S next next' ρ) (hb : b.In S (k + 1)) (hm : m.In S k') :
    test' (next' + 1) ((b.relabel ρ id).instantiate (.free ⟨next', none⟩))
      ((m.relabel ρ id).app (.free ⟨next', none⟩)) =
    test (next + 1) (b.instantiate (.free ⟨next, none⟩)) (m.app (.free ⟨next, none⟩)) := by
  have hbody : (b.instantiate (.free ⟨next, none⟩)).In (S.push ⟨next, none⟩) k :=
    (hb.widen (S.le_push _)).instantiate (.inr rfl)
  have happ : (m.app (.free ⟨next, none⟩)).In (S.push ⟨next, none⟩) k' :=
    ⟨hm.widen (S.le_push _), .inr rfl⟩
  have hrelabel : (m.app (.free ⟨next, none⟩)).relabel (Renaming.extend ρ next next' none) id =
      (m.relabel ρ id).app (.free ⟨next', none⟩) := by
    rw [relabel, hρ.relabel_extend none hm, relabel, Renaming.extend_self]
  rw [← hρ.relabel_opened none hb, ← hrelabel]
  exact htest _ _ _ _ k k' _ _ (henv.push _) (hS.push _) (hρ.push none) hbody happ

end

end

lemma testRenamed_compareWith {otherwise otherwise' : Nat → Term → Term → Option Bool}
    (htest : TestRenamed env env' test test') (hother : TestRenamed env env' otherwise otherwise') :
    TestRenamed env env' (fun next => compareWith test (otherwise next) next)
      (fun next => compareWith test' (otherwise' next) next) := by
  intro S ρ next next' k k' a b henv hS hρ ha hb
  have hlam : ∀ {m : Term}, ¬ m.IsLam → ¬ (m.relabel ρ id).IsLam := by
    intro m hm
    cases m <;> exact hm
  dsimp only
  induction a, b using compare_cases with
  | sorts l l' => rfl
  | products x i t m x' i' t' m' | abstractions x t m x' t' m' =>
    have hdomain := htest S ρ next next' k k' t t' henv hS hρ ha.1 hb.1
    have hbodies := htest.bodies henv hS hρ ha.2 hb.2
    simp only [relabel, compareWith, hdomain, hbodies]
  | etaLeft x t m b hb' =>
    rw [relabel, compareWith_etaLeft _ _ _ (hlam hb'), compareWith_etaLeft _ _ _ hb']
    exact htest.eta henv hS hρ ha.2 hb
  | etaRight a x t m ha' =>
    rw [relabel, compareWith_etaRight _ _ _ (hlam ha'), compareWith_etaRight _ _ _ ha']
    exact htest.eta henv hS hρ hb.2 ha
  | spines a b ha' hb' hab =>
    have hab' : (a.relabel ρ id).BinderApart (b.relabel ρ id) := by
      cases a <;> cases b <;> exact hab
    rw [compareWith_spines _ _ _ (hlam ha') (hlam hb') hab', compareWith_spines _ _ _ ha' hb' hab,
      htest.spinesEq henv hS hρ ha hb, hother S ρ next next' k k' a b henv hS hρ ha hb]

private lemma isDefEq_renamed_of_fuel (fuel : Nat) : TestRenamed env env' (env.isDefEq fuel) (env'.isDefEq fuel) ∧
    TestRenamed env env' (env.isDefEqCore fuel) (env'.isDefEqCore fuel) ∧
    TestRenamed env env' (env.isDefEqDelta fuel) (env'.isDefEqDelta fuel) := by
  induction fuel with
  | zero => exact ⟨fun _ _ _ _ _ _ _ _ _ _ _ _ _ => rfl, fun _ _ _ _ _ _ _ _ _ _ _ _ _ => rfl,
      fun _ _ _ _ _ _ _ _ _ _ _ _ _ => rfl⟩
  | succ fuel ih =>
    obtain ⟨ihTest, ihCore, ihDelta⟩ := ih
    refine ⟨fun S ρ next next' k k' a b henv hS hρ ha hb => ?_,
      fun S ρ next next' k k' a b henv hS hρ ha hb => ?_, fun S ρ next next' k k' a b henv hS hρ ha hb => ?_⟩
    · rw [isDefEq_succ, isDefEq_succ, hρ.alphaEq_relabel ha hb, henv.whnfCore hS ha, henv.whnfCore hS hb]
      split
      · rfl
      · cases hwa : env.whnfCore fuel a with
        | none => rfl
        | some a' =>
          cases hwb : env.whnfCore fuel b with
          | none => rfl
          | some b' =>
            exact ihCore S ρ next next' k k' a' b' henv hS hρ ((steps_of_whnfCore hwa).in_scope hS ha)
              ((steps_of_whnfCore hwb).in_scope hS hb)
    · rw [isDefEqCore_succ, isDefEqCore_succ, hρ.alphaEq_relabel ha hb]
      have hstep := testRenamed_compareWith ihTest ihDelta S ρ next next' k k' a b henv hS hρ ha hb
      dsimp only at hstep
      rw [hstep]
    · rw [isDefEqDelta_succ, isDefEqDelta_succ, henv.whnfUnfolded hS ha hb, henv.whnfUnfolded hS hb ha,
        if_congr (henv.stuck_iff ha hb ρ) rfl rfl]
      split
      · rfl
      · cases hwa : env.whnfUnfolded fuel a (env.unfoldBeside? a b) with
        | none => rfl
        | some a' =>
          cases hwb : env.whnfUnfolded fuel b (env.unfoldBeside? b a) with
          | none => rfl
          | some b' =>
            exact ihCore S ρ next next' k k' a' b' henv hS hρ (whnfUnfolded_in hS ha hwa)
              (whnfUnfolded_in hS hb hwb)

/-- Conversion answers alike for terms with other identities, with the same fuel. -/
lemma isDefEq_relabel {ρ : Id → Id} (henv : env.Relabels env' S id) (hS : env.Admits S)
    (hρ : Renaming S next next' ρ) (ha : a.In S k) (hb : b.In S k') (fuel : Nat) :
    env'.isDefEq fuel next' (a.relabel ρ id) (b.relabel ρ id) = env.isDefEq fuel next a b :=
  (isDefEq_renamed_of_fuel fuel).1 S ρ next next' k k' a b henv hS hρ ha hb

/-! ## Type checking -/

/-- What is declared in the first environment means the same in the second, where a constructor may hide its type. -/
structure Continues (env env' : Env) : Prop where
  get? : ∀ c d, env.get? c = some d → env'.get? c = some d ∨
    d.kind = .inductiveType ∧ ∃ d' t i, env'.get? c = some d' ∧ d'.kind = .constructor t i
  recursors : ∀ c d, env.get? c = some d → env'.recursorOf? c = env.recursorOf? c
  families : ∀ n t, env.inductive? n = some t → env'.inductive? n = some t

lemma Continues.refl (env : Env) : env.Continues env :=
  ⟨fun _ _ h => .inl h, fun _ _ _ => rfl, fun _ _ h => h⟩

lemma relabel_of_closed (hm : m.In (env.scope ps fun _ => False) k) (ρ : Id → Id)
    (f : Level → Level) : m.relabel ρ f = m.mapLevels f := by
  have hid : m.relabel ρ f = m.relabel id f := relabel_congr f hm fun _ hx => hx.elim
  rw [hid, relabel_id_left]

lemma relabel_eq_self (hm : m.In (env.scope ps fun _ => False) k) (ρ : Id → Id) : m.relabel ρ id = m := by
  rw [relabel_of_closed hm, mapLevels_eq_self fun l => id_eq l]

lemma relabel_instance (hm : m.In (env.scope qs fun _ => False) k) (ls : List Level) (ρ : Id → Id) :
    (m.instantiateLevelParams qs ls).relabel ρ id = m.instantiateLevelParams qs ls := by
  have hclosed : (m.instantiateLevelParams qs ls).In { free := fun _ => False } k := by
    rw [instantiateLevelParams_eq_mapLevels]
    exact hm.mapLevels_free _
  have hid : (m.instantiateLevelParams qs ls).relabel ρ id = (m.instantiateLevelParams qs ls).relabel id id :=
    relabel_congr id hclosed fun _ hx => hx.elim
  rw [hid, relabel_id_left, mapLevels_eq_self fun l => id_eq l]

lemma unfoldConst?_of_get? {c : Name} {d : Decl} (hd : env.get? c = some d) (ls : List Level) :
    env.unfoldConst? c ls =
      match d.kind with
      | .definition value _ =>
        if d.levelParams.length = ls.length then some (value.instantiateLevelParams d.levelParams ls) else none
      | _ => none := by
  obtain ⟨n, params, type, kind⟩ := d
  cases kind <;> simp only [unfoldConst?, hd]

/-- Definitions have closed values, so the identities of hypotheses do not matter for reduction. -/
lemma Scoped.relabels (henv : env.Scoped) (S : Scope) : env.Relabels env S id where
  recursor _ _ _ := rfl
  height _ _ _ := rfl
  unfold c ls _ ρ := by
    rw [List.map_id]
    cases hd : env.get? c with
    | none => simp only [unfoldConst?, hd, Option.map_none]
    | some d =>
      rw [unfoldConst?_of_get? hd]
      cases hkind : d.kind with
      | definition v n =>
        have hv : v ∈ d.terms := by simp [Decl.terms, hkind]
        have hclosed := relabel_instance (henv.terms d (List.mem_of_find?_eq_some hd) v hv) ls ρ
        simp only
        split
        · rw [Option.map_some, hclosed]
        · rfl
      | _ => rfl

lemma Continues.relabels (h : env.Continues env') (henv : env.Scoped) (ps : List Name) (P : Id → Prop) :
    env.Relabels env' (env.scope ps P) id where
  recursor := by
    rintro c ls ⟨⟨d, hd, _⟩, _⟩
    exact h.recursors c d hd
  height := by
    rintro c ls ⟨⟨d, hd, _⟩, _⟩
    rcases h.get? c d hd with hd' | ⟨hkind, d', t, i, hd', hkind'⟩
    · simp only [constHeight, hd, hd']
    · simp only [constHeight, hd, hd', Option.map_some, hkind, hkind']
  unfold := by
    rintro c ls ⟨⟨d, hd, hlen⟩, hls⟩ ρ
    rw [List.map_id, unfoldConst?_of_get? hd]
    rcases h.get? c d hd with hd' | ⟨hkind, d', t, i, hd', hkind'⟩
    · rw [unfoldConst?_of_get? hd']
      cases hkind : d.kind with
      | definition value n =>
        have hv : value ∈ d.terms := by simp [Decl.terms, hkind]
        have hclosed := in_scope_instantiate (henv.terms d (List.mem_of_find?_eq_some hd) value hv) hlen hls
          fun _ => False
        simp only [if_pos hlen, Option.map_some, relabel_eq_self hclosed]
      | _ => rfl
    · rw [unfoldConst?_of_get? hd', hkind, hkind']
      rfl

variable {ps : List Name} {Γ Γ' : Context} {ρ : Id → Id}

/-- The hypotheses of the one context stand in the other one under their new identities. -/
def ContextRenamed (ρ : Id → Id) (Γ Γ' : Context) : Prop :=
  ∀ x h, Γ.get? x = some h → ∃ h', Γ'.get? (ρ x) = some h' ∧ h'.type = h.type.relabel ρ id

lemma ContextIn.foundIn (hΓ : env.ContextIn ps Γ) : Γ.FoundIn (env.scope ps (· ∈ Γ.ids)) 0 :=
  fun x h hget => ⟨Context.mem_ids_of_get? hget, hΓ x h hget⟩

lemma ContextRenamed.add (h : ContextRenamed ρ Γ Γ') (hΓ : Γ.FoundIn S k) (hρ : Renaming S next next' ρ) (x : Name)
    (ht : t.In S k) : ContextRenamed (Renaming.extend ρ next next' (some x)) (Γ.add (.new next x t))
      (Γ'.add (.new next' x (t.relabel ρ id))) := by
  intro y h' hget
  rw [Context.get?_add] at hget
  split at hget
  · rename_i hy
    obtain rfl := Option.some.inj hget
    subst hy
    refine ⟨.new next' x (t.relabel ρ id), ?_, (hρ.relabel_extend (some x) ht id).symm⟩
    rw [Context.get?_add, if_pos]
    exact (Renaming.extend_self ρ next next' (some x)).symm
  · obtain ⟨hy, hh'⟩ := hΓ y h' hget
    obtain ⟨h'', hget', htype⟩ := h y h' hget
    refine ⟨h'', ?_, htype.trans (hρ.relabel_extend (some x) hh' id).symm⟩
    rw [hρ.extend_of_free (some x) hy, Context.get?_add, if_neg, hget']
    intro heq
    have := hρ.target y hy
    rw [← heq] at this
    exact Nat.lt_irrefl _ this

lemma Renaming.add (hρ : Renaming (env.scope ps (· ∈ Γ.ids)) next next' ρ) (x : Name) (t : Term) :
    Renaming (env.scope ps (· ∈ (Γ.add (.new next x t)).ids)) (next + 1) (next' + 1)
      (Renaming.extend ρ next next' (some x)) :=
  (hρ.push (some x)).of_free fun _ => Context.mem_ids_add.mp

/-- A run of the checker is one for other identities, in an environment that continues its own and hides none of its
constants. -/
lemma Infers.relabel (henv : env.Scoped) (hcont : env.Continues env') (h : env.Infers ps next Γ m T)
    (hΓ : env.ContextIn ps Γ) (hm : m.In { free := fun x => x.number < next } k)
    (hkept : m.In { const := fun c _ => env'.get? c = env.get? c } k)
    (hρ : Renaming (env.scope ps (· ∈ Γ.ids)) next next' ρ) (hΓ' : ContextRenamed ρ Γ Γ') :
    env'.Infers ps next' Γ' (m.relabel ρ id) (T.relabel ρ id) := by
  have hwhnf {P : Id → Prop} {fuel : Nat} {F F' : Term} (hF : F.In (env.scope ps P) 0)
      (hwhnf : env.whnf fuel F = some F') (ρ : Id → Id) :
      env'.whnf fuel (F.relabel ρ id) = some (F'.relabel ρ id) := by
    rw [(hcont.relabels henv ps P).whnf (henv.admits_scope ps P) hF, hwhnf, Option.map_some]
  induction h generalizing k next' Γ' ρ with
  | free hget =>
    obtain ⟨h', hget', htype⟩ := hΓ' _ _ hget
    rw [← htype]
    exact .free hget'
  | sort hl => exact .sort hl
  | @const next Γ c ls d hget hkind hlen hls =>
    have hclosed := in_scope_instantiate (henv.terms d (List.mem_of_find?_eq_some hget) d.type d.type_mem_terms)
      hlen hls fun _ => False
    have hget' : env'.get? c = some d := hkept.trans hget
    rw [relabel_eq_self hclosed, Term.relabel, List.map_id]
    exact .const hget' hkind hlen hls
  | ctor ht hk hlen hls =>
    have hclosed := in_scope_instantiate (henv.ctors _ _ ht _ (List.mem_of_getElem? hk)) hlen hls fun _ => False
    rw [relabel_eq_self hclosed, Term.relabel, List.map_id]
    exact .ctor (hcont.families _ _ ht) hk hlen hls
  | @app next fuel fuel' Γ f a F A t b x i hf hpi ha hconv ihf iha =>
    have hF := hf.type_in_scope henv hΓ hm.1
    have hA := ha.type_in_scope henv hΓ hm.2
    have ht := ((steps_of_whnf hpi).in_scope (henv.admits_scope ps _) hF).1
    have hconv' : env'.isDefEq fuel' next' (A.relabel ρ id) (t.relabel ρ id) = some true := by
      rw [isDefEq_relabel (hcont.relabels henv ps _) (henv.admits_scope ps _) hρ hA ht, hconv]
    rw [Term.relabel_instantiate]
    exact .app (ihf hΓ hm.1 hkept.1 hρ hΓ') (hwhnf hF hpi ρ) (iha hΓ hm.2 hkept.2 hρ hΓ') hconv'
  | @lam next fuel Γ x t b S B l ht hsort hb iht ihb =>
    obtain ⟨htIn, hbIn⟩ := (Infers.lam ht hsort hb).in_scope hm
    have hbelow := below_opened hm.2 x t
    have hbody := ihb (hΓ.add htIn) hbelow (hkept.2.instantiate trivial) (Renaming.add hρ x t)
      (hΓ'.add hΓ.foundIn hρ x htIn)
    have hopened := hρ.relabel_opened (some x) hbIn id
    have hB : B.In ((env.scope ps (· ∈ Γ.ids)).push (Local.new next x t).id) 0 :=
      (hb.type_in_scope henv (hΓ.add htIn) hbelow).widen { free := fun _ => Context.mem_ids_add.mp }
    rw [Term.relabel, Term.relabel, Local.new, hρ.relabel_closed (some x) hB id]
    exact .lam (iht hΓ hm.1 hkept.1 hρ hΓ') (hwhnf (ht.type_in_scope henv hΓ hm.1) hsort ρ) (hopened ▸ hbody)
  | @pi next fuel fuel' Γ x i t b S S' l l' ht hsort hb hsort' iht ihb =>
    have hpi : (Term.pi x i t b).In (env.scope ps (· ∈ Γ.ids)) 0 := (Infers.pi ht hsort hb hsort').in_scope hm
    obtain ⟨htIn, hbIn⟩ := hpi
    have hbelow := below_opened hm.2 x t
    have hbody := ihb (hΓ.add htIn) hbelow (hkept.2.instantiate trivial) (Renaming.add hρ x t)
      (hΓ'.add hΓ.foundIn hρ x htIn)
    have hopened := hρ.relabel_opened (some x) hbIn id
    exact .pi (iht hΓ hm.1 hkept.1 hρ hΓ') (hwhnf (ht.type_in_scope henv hΓ hm.1) hsort ρ) (hopened ▸ hbody)
      (hwhnf (hb.type_in_scope henv (hΓ.add htIn) hbelow) hsort' _)

/-! ## Other numbers for the binders -/

/-- The hypotheses of a context with numbers below two bounds. -/
lemma renaming_id (hnext : ∀ x ∈ Γ.ids, x.number < next) (hnext' : ∀ x ∈ Γ.ids, x.number < next') :
    Renaming (env.scope ps (· ∈ Γ.ids)) next next' id :=
  ⟨fun _ _ _ _ h => h, hnext, hnext'⟩

lemma relabel_id (m : Term) : m.relabel id id = m := by
  rw [relabel_id_left, mapLevels_eq_self fun l => id_eq l]

lemma ContextRenamed.refl (Γ : Context) : ContextRenamed id Γ Γ :=
  fun _ h hget => ⟨h, hget, (relabel_id h.type).symm⟩

lemma Infers.rename (henv : env.Scoped) (h : env.Infers ps next Γ m T) (hΓ : env.ContextIn ps Γ)
    (hm : m.In { free := fun x => x.number < next } k) (hρ : Renaming (env.scope ps (· ∈ Γ.ids)) next next' ρ)
    (hΓ' : ContextRenamed ρ Γ Γ') : env.Infers ps next' Γ' (m.relabel ρ id) (T.relabel ρ id) := by
  have hle : Scope.Le { free := fun x => x.number < next } { const := fun c _ => env.get? c = env.get? c } :=
    { free := fun _ _ => trivial, const := fun _ _ _ => rfl }
  exact h.relabel henv (.refl env) hΓ hm (hm.widen hle) hρ hΓ'

/-- The number from which binders are opened does not matter. -/
lemma Infers.renumber (henv : env.Scoped) (h : env.Infers ps next Γ m T) (hΓ : env.ContextIn ps Γ)
    (hm : m.Below next) (hnext : ∀ x ∈ Γ.ids, x.number < next) (hnext' : ∀ x ∈ Γ.ids, x.number < next') :
    env.Infers ps next' Γ m T := by
  simpa only [relabel_id] using h.rename henv hΓ hm (renaming_id hnext hnext') (.refl Γ)

lemma isDefEq_renumber (henv : env.Scoped) {fuel : Nat} (ha : a.In (env.scope ps (· ∈ Γ.ids)) k)
    (hb : b.In (env.scope ps (· ∈ Γ.ids)) k') (hnext : ∀ x ∈ Γ.ids, x.number < next)
    (hnext' : ∀ x ∈ Γ.ids, x.number < next') : env.isDefEq fuel next' a b = env.isDefEq fuel next a b := by
  have h := isDefEq_relabel ((Continues.refl env).relabels henv ps (· ∈ Γ.ids)) (henv.admits_scope ps _)
    (renaming_id hnext hnext') ha hb fuel
  simpa only [relabel_id] using h

/-! ## Symmetry of conversion -/

/-- The number from which binders are opened does not matter for terms with any constants and holes. -/
lemma isDefEq_renumber_of_below (henv : env.Scoped) {bound : Nat} (ha : a.Below bound) (hb : b.Below bound)
    (hnext : bound ≤ next) (hnext' : bound ≤ next') (fuel : Nat) :
    env.isDefEq fuel next' a b = env.isDefEq fuel next a b := by
  have hadmits : env.Admits { free := fun x => x.number < bound } := fun c ls d value height hd hkind hlen _ =>
    (henv.admits_noFree c ls d value height hd hkind hlen trivial).widen { free := fun _ => False.elim }
  have hid : Renaming { free := fun x => x.number < bound } next next' id :=
    ⟨fun _ _ _ _ h => h, fun _ hx => Nat.lt_of_lt_of_le hx hnext, fun _ hx => Nat.lt_of_lt_of_le hx hnext'⟩
  have h := isDefEq_relabel (henv.relabels _) hadmits hid ha hb fuel
  simpa only [relabel_id] using h

/-- If one of two terms compares with the other, with an answer, so does the other with the one. They may open binders
from one number, or, in an environment built by declarations, from two different ones above the hypotheses of the terms.
-/
theorem isDefEq_symmetric (env : Env) {next next' : Nat} {a b : Term}
    (hnext : next' = next ∨
      Reachable env ∧ a.Below (min next next') ∧ b.Below (min next next')) :
    ((∃ fuel r, env.isDefEq fuel next a b = some r) ↔ ∃ fuel r, env.isDefEq fuel next' b a = some r) ∧
      ∀ fuel fuel' r r', env.isDefEq fuel next a b = some r → env.isDefEq fuel' next' b a = some r' → r = r' := by
  have hcomm : ∀ fuel, env.isDefEq fuel next' b a = env.isDefEq fuel next a b := by
    intro fuel
    rw [isDefEq_comm]
    rcases hnext with rfl | ⟨henv, ha, hb⟩
    · rfl
    · exact isDefEq_renumber_of_below (scoped_of_reachable henv) ha hb (Nat.min_le_left next next')
        (Nat.min_le_right next next') fuel
  refine ⟨by simp only [hcomm], fun fuel fuel' r r' h h' => ?_⟩
  rw [hcomm] at h'
  exact isDefEq_unique h h'

/-- A hole and its η-expansion over a type that has no type itself, where the second comparison starts at
another number. -/
theorem isDefEq_symmetric_etaHole :
    let a := Term.lam ⟨"x"⟩ (.app .prop .prop) (.app (.hole ⟨0, none⟩ false) (.var 0))
    let b := Term.hole ⟨0, none⟩ false
    ({} : Env).isDefEq 4 0 a b = some true ∧ ∃ fuel, ({} : Env).isDefEq fuel 7 b a = some true := by
  intro a b
  have hrun : ({} : Env).isDefEq 4 0 a b = some true := by decide
  have hbelow : a.Below (min 0 7) ∧ b.Below (min 0 7) := by
    simp [a, b, Term.Below, Term.In, Term.prop]
  have hsymm := isDefEq_symmetric {} (.inr ⟨.refl, hbelow.1, hbelow.2⟩)
  obtain ⟨fuel, r, hr⟩ := hsymm.1.mp ⟨4, true, hrun⟩
  obtain rfl := hsymm.2 4 fuel true r hrun hr
  exact ⟨hrun, fuel, hr⟩

end Env

end ProofAssistant
