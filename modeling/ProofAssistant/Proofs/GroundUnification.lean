import ProofAssistant.Proofs.AlphaEquivalence
import ProofAssistant.Proofs.LevelInstances
import ProofAssistant.Proofs.LevelOrder
import ProofAssistant.Unification

/-!
# Unification of ground terms is conversion

On terms without holes and universe metavariables, unification is another way to run conversion: it reduces until
nothing changes instead of once, takes levels apart instead of normalizing them, and opens binders under their own
names. The two agree whenever both give an answer (`Env.unify_ground_eq_isDefEq`).

`SolveM.Only x μ a` says that `x`, run with the solutions `μ`, can end only with the answer `a` and with `μ`. Such
statements compose along the calls.
-/

namespace ProofAssistant

open Level Option

variable {x c : Name} {r : Bool} {m a' b' t v pattern m' : Term}

/-! ## Runs that solve nothing -/

namespace SolveM

variable {α β : Type} {μ : Metas}

/-- If the computation ends, then with the answer `a`, and without new solutions. -/
def Only (x : SolveM α) (μ : Metas) (a : α) : Prop :=
  ∀ a' μ', x.run μ = some (a', μ') → a' = a ∧ μ' = μ

lemma only_pure (a : α) : (pure a : SolveM α).Only μ a := by
  intro a' μ' h
  simp only [StateT.run_pure, pure_def, Option.some.injEq, Prod.mk.injEq] at h
  exact ⟨h.1.symm, h.2.symm⟩

lemma only_failure (a : α) : (failure : SolveM α).Only μ a := by
  intro a' μ' h
  exact nomatch h

lemma only_get : (get : SolveM Metas).Only μ μ := by
  intro a' μ' h
  obtain ⟨rfl, rfl⟩ := Prod.mk.inj (Option.some.inj h)
  exact ⟨rfl, rfl⟩

lemma Only.bind {x : SolveM α} {f : α → SolveM β} {a : α} {b : β} (hx : x.Only μ a) (hf : (f a).Only μ b) :
    (x >>= f).Only μ b := by
  intro b' μ' h
  rw [StateT.run_bind] at h
  cases hrun : x.run μ with
  | none =>
    rw [hrun] at h
    exact nomatch h
  | some p =>
    obtain ⟨a', μ₁⟩ := p
    obtain ⟨rfl, rfl⟩ := hx a' μ₁ hrun
    rw [hrun] at h
    exact hf b' μ' h

/-- A computation that does not see the solutions may give no answer. -/
lemma only_lift_bind {o : Option α} {f : α → SolveM β} {b : β} (h : ∀ a, o = some a → (f a).Only μ b) :
    ((liftM o : SolveM α) >>= f).Only μ b := by
  cases o with
  | none =>
    intro b' μ' hrun
    exact nomatch hrun
  | some a => exact h a rfl

/-- An attempt that solves nothing leaves nothing to be taken back. -/
lemma Only.orRestore {x : SolveM Bool} (hx : x.Only μ r) : (orRestore x).Only μ r := by
  refine only_get.bind (hx.bind ?_)
  cases r with
  | true => exact only_pure true
  | false =>
    intro r' μ' h
    obtain ⟨rfl, rfl⟩ := Prod.mk.inj (Option.some.inj h)
    exact ⟨rfl, rfl⟩

/-- Pairs that are compared one after the other, as another test compares them. -/
lemma only_allPairs {α : Type} {test : α → α → SolveM Bool} {test' : α → α → Option Bool} {as bs : List α}
    (htest : ∀ a ∈ as, ∀ b ∈ bs, ∀ r, test' a b = some r → (test a b).Only μ r)
    (h : Env.allPairs test' as bs = some r) : (Env.allPairs test as bs).Only μ r := by
  induction as generalizing bs with
  | nil =>
    obtain rfl := Option.some.inj h
    exact only_pure true
  | cons a as ih =>
    cases bs with
    | nil =>
      obtain rfl := Option.some.inj h
      exact only_pure true
    | cons b bs =>
      rw [Env.allPairs, bind_eq_bind, bind_eq_some_iff] at h
      obtain ⟨same, hsame, h⟩ := h
      refine Only.bind (htest a (by simp) b (by simp) same hsame) ?_
      cases same with
      | true => exact ih (fun a ha b hb => htest a (by simp [ha]) b (by simp [hb])) h
      | false =>
        obtain rfl := Option.some.inj h
        exact only_pure false

end SolveM

/-! ## Levels -/

namespace Level

open SolveM

lemma instantiateLevel_ground (μ : Metas) {l : Level} (h : l.hasMVar = false) : μ.instantiateLevel l = l := by
  simp [Metas.instantiateLevel, h]

/-- Levels without metavariables can be made equivalent only if they are, since equivalent parts make equivalent levels.
-/
lemma only_unify {a b : Level} (ha : a.hasMVar = false) (hb : b.hasMVar = false) (μ : Metas) (fuel : Nat) :
    (unify fuel a b).Only μ (a.isEquiv b) := by
  induction fuel generalizing a b with
  | zero => exact only_failure _
  | succ fuel ih =>
    -- names of metavariables that there are not come from any table
    have hnames {l : Level} (hl : l.hasMVar = false) : l.Hinted fun _ => none := .of_hasMVar hl
    -- two parts each, of a maximum
    have hparts {a b a' b' : Level} (ha : a.hasMVar = false) (hb : b.hasMVar = false) (ha' : a'.hasMVar = false)
        (hb' : b'.hasMVar = false) (hnot : ¬ (a.isEquiv b ∧ a'.isEquiv b')) :
        (orRestore do if ← unify fuel a b then unify fuel a' b' else return false).Only μ false := by
      refine (Only.bind (ih ha hb) ?_).orRestore
      by_cases h : a.isEquiv b
      · have h' : a'.isEquiv b' = false := Bool.eq_false_iff.mpr fun h' => hnot ⟨h, h'⟩
        rw [if_pos h, ← h']
        exact ih ha' hb'
      · rw [if_neg h]
        exact only_pure false
    refine only_get.bind (only_get.bind ?_)
    rw [instantiateLevel_ground μ ha, instantiateLevel_ground μ hb]
    by_cases h : a.isEquiv b
    · rw [if_pos h, h]
      exact only_pure true
    · rw [if_neg h, Bool.eq_false_iff.mpr h]
      cases a with
      | mvar u => exact nomatch ha
      | succ a =>
        cases b with
        | mvar u => exact nomatch hb
        | succ b =>
          have hnot : a.isEquiv b = false := Bool.eq_false_iff.mpr fun h' => h (isEquiv_succ (hnames ha) (hnames hb) h')
          rw [← hnot]
          exact ih ha hb
        | _ => exact only_pure false
      | max a a' =>
        cases b with
        | mvar u => exact nomatch hb
        | max b b' =>
          simp only [hasMVar, Bool.or_eq_false_iff] at ha hb
          exact hparts ha.1 hb.1 ha.2 hb.2 fun h' =>
            h (isEquiv_max (hnames ha.1) (hnames hb.1) (hnames ha.2) (hnames hb.2) h'.1 h'.2)
        | _ => exact only_pure false
      | imax a a' =>
        cases b with
        | mvar u => exact nomatch hb
        | imax b b' =>
          simp only [hasMVar, Bool.or_eq_false_iff] at ha hb
          exact hparts ha.1 hb.1 ha.2 hb.2 fun h' =>
            h (isEquiv_imax (hnames ha.1) (hnames hb.1) (hnames ha.2) (hnames hb.2) h'.1 h'.2)
        | _ => exact only_pure false
      | _ =>
        cases b with
        | mvar u => exact nomatch hb
        | _ => exact only_pure false

lemma only_unifyAll {ls ls' : List Level} (hls : ∀ l ∈ ls, l.hasMVar = false) (hls' : ∀ l ∈ ls', l.hasMVar = false)
    (μ : Metas) (fuel : Nat) : (unifyAll fuel ls ls').Only μ (ls.length == ls'.length && Env.levelsEquiv ls ls') := by
  unfold unifyAll
  by_cases hlen : ls.length = ls'.length
  · have hpairs : ∀ ls ls' : List Level,
        Env.allPairs (fun l l' => some (l.isEquiv l')) ls ls' = some (Env.levelsEquiv ls ls') := by
      intro ls
      induction ls with
      | nil => exact fun _ => rfl
      | cons l ls ih =>
        intro ls'
        cases ls' with
        | nil => rfl
        | cons l' ls' =>
          have hrest := ih ls'
          simp only [Env.allPairs, Env.levelsEquiv, List.zip_cons_cons, List.all_cons, hrest]
          cases l.isEquiv l' <;> rfl
    rw [if_pos hlen, beq_iff_eq.mpr hlen]
    refine only_allPairs (fun l hl l' hl' r hr => ?_) (hpairs ls ls')
    obtain rfl := Option.some.inj hr
    exact only_unify (hls l hl) (hls' l' hl') μ fuel
  · rw [if_neg hlen, beq_eq_false_iff_ne.mpr hlen]
    exact only_pure false

end Level

/-! ## Finished terms -/

/-- What a finished term may mention: hypotheses that satisfy `P`, and levels without metavariables. It has no
holes. -/
def Scope.finished (P : Id → Prop) : Scope where
  free := P
  level l := l.hasMVar = false
  const _ ls := ∀ l ∈ ls, l.hasMVar = false
  ctor _ _ ls := ∀ l ∈ ls, l.hasMVar = false
  hole _ := False

namespace Term

variable {P : Id → Prop} {k : Nat} {m : Term}

lemma In.hasLevelMVar_eq_false (hm : m.In (.finished P) k) : m.hasLevelMVar = false := by
  refine Bool.eq_false_iff.mpr ((leafwise_in _).imp (leafwise_anyLevel hasMVar False) (fun k m hl h => ?_) hm)
  cases m <;> simp_all [IsLeaf, In, anyLevel, Scope.finished]

end Term

lemma Metas.instantiate_of_known (μ : Metas) (hhole : m.hasHole = false)
    (hlevel : m.hasLevelMVar = false) : μ.instantiate m = m := by
  simp [instantiate, Term.resolveHoles_of_hasHole hhole, hlevel]

lemma Metas.instantiate_finished (μ : Metas) {P : Id → Prop} {k : Nat} (hm : m.In (.finished P) k) :
    μ.instantiate m = m :=
  μ.instantiate_of_known (hm.hasHole_eq_false fun _ h => h) hm.hasLevelMVar_eq_false

namespace Env

variable {env : Env}

lemma Scoped.value_in_scope (henv : env.Scoped) {ls : List Level} {d : Decl} {n : Nat}
    (hget : env.get? c = some d) (hkind : d.kind = .definition v n) (hlen : d.levelParams.length = ls.length)
    (hls : ∀ l ∈ ls, l.hasMVar = false) :
    (v.instantiateLevelParams d.levelParams ls).In (env.scope (ls.flatMap params) fun _ => False) 0 := by
  have hv : v ∈ d.terms := by simp [Decl.terms, hkind]
  have hplain : ∀ l ∈ ls, l.Admitted (ls.flatMap params) := fun l hl =>
    ⟨hls l hl, fun p hp => List.mem_flatMap.mpr ⟨l, hl, hp⟩⟩
  exact in_scope_instantiate (henv.terms d (List.mem_of_find?_eq_some hget) v hv) hlen hplain fun _ => False

lemma scope_le_finished (env : Env) (ps : List Name) {P Q : Id → Prop} (h : ∀ x, P x → Q x) :
    (env.scope ps P).Le (.finished Q) where
  free := h
  level _ hl := hl.1
  const _ _ hc l hl := (hc.2 l hl).1
  ctor _ _ _ hc l hl := (hc.2 l hl).1

lemma Scoped.admits_finished (henv : env.Scoped) (P : Id → Prop) : env.Admits (.finished P) :=
  fun _ _ _ _ _ hget hkind hlen hls => (henv.value_in_scope hget hkind hlen hls).widen
    (env.scope_le_finished _ fun _ h => h.elim)

end Env

/-! ## Ground terms -/

namespace Env

variable {b m a : Term} {k' fuel' : Nat} {r : Bool} {Γ : Context}

open SolveM Term

/-- Hypotheses with numbers below `next`, levels without metavariables, constructors with the right number of levels, no
holes. -/
def ground (env : Env) (next : Nat) : Scope where
  free x := x.number < next
  level l := l.hasMVar = false
  const _ ls := ∀ l ∈ ls, l.hasMVar = false
  ctor n _ ls := (∃ t, env.inductive? n = some t ∧ t.levelParams.length = ls.length) ∧ ∀ l ∈ ls, l.hasMVar = false
  hole _ := False

variable {env : Env} {next k : Nat}

lemma ground_le (env : Env) {next next' : Nat} (h : next ≤ next') : (env.ground next).Le (env.ground next') where
  free _ hx := Nat.lt_of_lt_of_le hx h

lemma ground_opened (hb : b.In (env.ground next) (k + 1)) (hint : Option Name) :
    (b.instantiate (.free ⟨next, hint⟩)).In (env.ground (next + 1)) k :=
  (hb.widen (env.ground_le (Nat.le_succ next))).instantiate (Nat.lt_succ_self next)

lemma Scoped.admits_ground (henv : env.Scoped) (next : Nat) : env.Admits (env.ground next) := by
  intro c ls d v n hget hkind hlen hls
  have hle : (env.scope (ls.flatMap params) fun _ => False).Le (env.ground next) :=
    { free := fun _ h => h.elim
      level := fun _ hl => hl.1
      const := fun _ _ hc l hl => (hc.2 l hl).1
      ctor := by
        rintro _ _ _ ⟨⟨t, ht, _, hlen⟩, hls⟩
        exact ⟨⟨t, ht, hlen⟩, fun l hl => (hls l hl).1⟩ }
  exact (henv.value_in_scope hget hkind hlen hls).widen hle

lemma ground_le_finished (env : Env) (next : Nat) : (env.ground next).Le (.finished (·.number < next)) where
  ctor _ _ _ hc := hc.2

lemma instantiate_ground (μ : Metas) (hm : m.In (env.ground next) k) : μ.instantiate m = m :=
  μ.instantiate_finished (hm.widen (env.ground_le_finished next))

lemma only_solve? (hpattern : pattern.In (env.ground next) k) (s : Supply) (μ : Metas)
    (fuel next' : Nat) (Γ : Context) (m : Term) : (env.solve? s fuel next' Γ pattern m).Only μ none := by
  cases fuel with
  | zero =>
    rw [solve?]
    exact only_failure none
  | succ fuel =>
    have hnone : pattern.pattern? = none := by
      have hhead := hpattern.head_args.1
      unfold pattern?
      cases h : pattern.head with
      | hole => rw [h] at hhead; exact hhead.elim
      | _ => rfl
    rw [solve?]
    refine only_get.bind ?_
    have hsolvable : solvable? s μ pattern m = none := by simp [solvable?, hnone]
    rw [hsolvable]
    exact only_pure none

lemma only_unifyHeads (ha : a.In (env.ground next) k) (hb : b.In (env.ground next) k') (μ : Metas) (fuel : Nat) :
    (unifyHeads fuel a b).Only μ (headsEq a b) := by
  cases a with
  | const c ls =>
    cases b with
    | const c' ls' =>
      rw [unifyHeads, headsEq]
      by_cases hc : c = c'
      · rw [if_pos hc, beq_iff_eq.mpr hc]
        exact only_unifyAll ha hb μ fuel
      · rw [if_neg hc, beq_eq_false_iff_ne.mpr hc]
        exact only_pure false
    | _ => exact only_pure false
  | ctor t i n ls =>
    cases b with
    | ctor t' i' n' ls' =>
      rw [unifyHeads, headsEq]
      by_cases ht : t = t' ∧ i = i'
      · obtain ⟨rfl, rfl⟩ := ht
        -- both have as many levels as their type has parameters
        have hlen : ls.length = ls'.length := by
          obtain ⟨⟨T, hT, hlen⟩, _⟩ := ha
          obtain ⟨⟨T', hT', hlen'⟩, _⟩ := hb
          obtain rfl := Option.some.inj (hT.symm.trans hT')
          omega
        have hall := only_unifyAll ha.2 hb.2 μ fuel
        simpa [hlen] using hall
      · rw [if_neg ht]
        have hfalse : (t == t' && i == i') = false := by simpa using ht
        rw [hfalse]
        exact only_pure false
    | _ => exact only_pure false
  | free x | var i | hole h d =>
    cases b with
    | _ => exact only_pure _
  | _ => cases b <;> exact only_pure false

/-! ## Weak head normal forms -/

/-- Reduction by β and ι leaves the term as it is. -/
def CoreNormal (env : Env) (m : Term) : Prop :=
  ∃ fuel, env.whnfCore fuel m = some m

/-- A weak head normal form is reduced to itself: the last step of the run that found it is such a run. -/
lemma coreNormal_of_whnfCore {fuel : Nat} (h : env.whnfCore fuel m = some m') : env.CoreNormal m' := by
  induction fuel generalizing m with
  | zero => exact nomatch h
  | succ fuel ih =>
    have hself : m = m' → env.CoreNormal m' := fun heq => ⟨fuel + 1, heq ▸ h⟩
    rw [whnfCore] at h
    split at h
    · split at h
      · exact ih h
      · exact hself (Option.some.inj h)
    · split at h
      · split at h
        · rw [bind_eq_bind, bind_eq_some_iff] at h
          obtain ⟨major, _, h⟩ := h
          split at h
          · exact ih h
          · exact hself (Option.some.inj h)
        · exact hself (Option.some.inj h)
      · exact hself (Option.some.inj h)
    · exact hself (Option.some.inj h)

/-- Terms compare as their weak head normal forms do, also if they are alike and conversion need not reduce them. -/
lemma isDefEq_of_core {fuel fuel₁ fuel₂ : Nat} (ha : env.whnfCore fuel₁ a = some a')
    (hb : env.whnfCore fuel₂ b = some b') (h : env.isDefEqCore fuel next a' b' = some r) :
    ∃ fuel', env.isDefEq fuel' next a b = some r := by
  refine ⟨fuel + fuel₁ + fuel₂ + 1, ?_⟩
  have ha : env.whnfCore (fuel + fuel₁ + fuel₂) a = some a' := whnfCore_mono (by omega) ha
  have hb : env.whnfCore (fuel + fuel₁ + fuel₂) b = some b' := whnfCore_mono (by omega) hb
  have hcore : env.isDefEqCore (fuel + fuel₁ + fuel₂) next a' b' = some r := isDefEqCore_mono (by omega) h
  rw [isDefEq_succ, ha, hb]
  by_cases halpha : a.alphaEq b
  · have halike := (alphaEq_iff.mp halpha).whnfCore env (fuel + fuel₁ + fuel₂)
    rw [ha, hb, rel_some_some, ← alphaEq_iff] at halike
    cases fuel with
    | zero => exact nomatch h
    | succ fuel =>
      rw [isDefEqCore_succ, if_pos halike] at h
      rw [if_pos halpha, h]
  · rw [if_neg halpha]
    exact hcore

/-! ## Binders -/

/-- Bodies compare alike whatever the hypothesis they are opened with remembers as its name. -/
lemma isDefEq_opened (henv : env.Scoped) (hb : b.In (env.ground next) (k + 1))
    (hb' : b'.In (env.ground next) (k' + 1)) (x : Name) (fuel : Nat) :
    env.isDefEq fuel (next + 1) (b.instantiate (.free ⟨next, some x⟩)) (b'.instantiate (.free ⟨next, some x⟩)) =
      env.isDefEq fuel (next + 1) (b.instantiate (.free ⟨next, none⟩)) (b'.instantiate (.free ⟨next, none⟩)) := by
  let ρ : Id → Id := Function.update id ⟨next, none⟩ ⟨next, some x⟩
  have hnew : ρ ⟨next, none⟩ = ⟨next, some x⟩ := Function.update_self ..
  have hold : ∀ y : Id, y.number < next → ρ y = y := fun y hy =>
    Function.update_of_ne (fun heq => Nat.lt_irrefl next (by rwa [heq] at hy)) _ _
  have hρ : Renaming ((env.ground next).push ⟨next, none⟩) (next + 1) (next + 1) ρ := by
    refine ⟨?_, ?_, ?_⟩
    · rintro y z (hy | rfl) (hz | rfl) heq
      · rwa [hold y hy, hold z hz] at heq
      · rw [hold y hy, hnew] at heq
        exact absurd (show y.number < next from hy) (by simp [heq])
      · rw [hold z hz, hnew] at heq
        exact absurd (show z.number < next from hz) (by simp [← heq])
      · rfl
    · rintro y (hy | rfl)
      · exact Nat.lt_succ_of_lt hy
      · exact Nat.lt_succ_self next
    · rintro y (hy | rfl)
      · rw [hold y hy]
        exact Nat.lt_succ_of_lt hy
      · rw [hnew]
        exact Nat.lt_succ_self next
  have hopen : ∀ {k : Nat} {m : Term}, m.In (env.ground next) (k + 1) →
      (m.instantiate (.free ⟨next, none⟩)).In ((env.ground next).push ⟨next, none⟩) k ∧
        (m.instantiate (.free ⟨next, none⟩)).relabel ρ id = m.instantiate (.free ⟨next, some x⟩) := by
    intro k m hm
    refine ⟨(hm.widen ((env.ground next).le_push _)).instantiate (.inr rfl), ?_⟩
    rw [relabel_instantiate, relabel, hnew]
    have hkeep : m.relabel ρ id = m.relabel id id := relabel_congr id hm fun y hy => hold y hy
    rw [hkeep, relabel_id]
  have h := isDefEq_relabel (henv.relabels _) ((henv.admits_ground next).push ⟨next, none⟩) hρ (hopen hb).1
    (hopen hb').1 fuel
  rwa [(hopen hb).2, (hopen hb').2] at h

/-- A term on a hypothesis is a body that is opened with it. -/
lemma app_eq_opened (f a : Term) : f.app a = (app f.shift (.var 0)).instantiate a := by
  rw [instantiate_eq_replace, replace, ← instantiate_eq_replace, instantiate_shift]
  rfl

/-! ## The two procedures -/

section

variable (env : Env) (s : Supply) (fuel next : Nat) (Γ : Context)

lemma unifyCore_etaLeft (hb : ¬ b.IsLam) :
    env.unifyCore s (fuel + 1) next Γ (.lam x t m) b = (do
      let h := Local.new next x ((← get).instantiate t)
      env.unify s fuel (next + 1) (Γ.push h) (m.instantiate h.term) (b.app h.term)) := by
  cases b with
  | lam => exact absurd trivial hb
  | _ => simp only [unifyCore]

lemma unifyCore_etaRight (ha : ¬ a.IsLam) :
    env.unifyCore s (fuel + 1) next Γ a (.lam x t m) = (do
      let h := Local.new next x ((← get).instantiate t)
      env.unify s fuel (next + 1) (Γ.push h) (m.instantiate h.term) (a.app h.term)) := by
  cases a with
  | lam => exact absurd trivial ha
  | _ => simp only [unifyCore]

/-- Makes two terms convertible by unfolding the definitions at their heads. -/
def unifyDelta (a b : Term) : SolveM Bool :=
  let ha := env.headHeight a
  let hb := env.headHeight b
  let a' := if 0 < ha ∧ hb ≤ ha then env.unfoldHead? a else none
  let b' := if 0 < hb ∧ ha ≤ hb then env.unfoldHead? b else none
  if a'.isNone && b'.isNone then return false
  else env.unify s fuel next Γ (a'.getD a) (b'.getD b)

lemma unifyCore_spines (ha : ¬ a.IsLam) (hb : ¬ b.IsLam) (hab : a.BinderApart b) :
    env.unifyCore s (fuel + 1) next Γ a b = (do
      if ← orRestore (env.unifySpines s fuel next Γ a b) then return true
      else env.unifyDelta s fuel next Γ a b) := by
  cases a with
  | lam => exact absurd trivial ha
  | sort =>
    cases b with
    | lam => exact absurd trivial hb
    | sort => exact hab.elim
    | _ => simp only [unifyCore, unifyDelta]
  | pi =>
    cases b with
    | lam => exact absurd trivial hb
    | pi => exact hab.elim
    | _ => simp only [unifyCore, unifyDelta]
  | _ =>
    cases b with
    | lam => exact absurd trivial hb
    | _ => simp only [unifyCore, unifyDelta]

end

/-- With this much fuel unification answers as conversion does, whenever both answer. -/
structure UnifiesAlike (env : Env) (s : Supply) (μ : Metas) (fuel : Nat) : Prop where
  unify : ∀ {next k k' fuel' : Nat} {Γ : Context} {a b : Term} {r : Bool}, a.In (env.ground next) k →
    b.In (env.ground next) k' → env.isDefEq fuel' next a b = some r → (env.unify s fuel next Γ a b).Only μ r
  core : ∀ {next k k' fuel' : Nat} {Γ : Context} {a b : Term} {r : Bool}, a.In (env.ground next) k →
    b.In (env.ground next) k' → env.CoreNormal a → env.CoreNormal b → ¬ a.Alike b →
    env.isDefEqCore fuel' next a b = some r → (env.unifyCore s fuel next Γ a b).Only μ r
  spines : ∀ {next k k' fuel' : Nat} {Γ : Context} {a b : Term} {r : Bool}, a.In (env.ground next) k →
    b.In (env.ground next) k' → spinesEq (env.isDefEq fuel' next) a b = some r →
    (env.unifySpines s fuel next Γ a b).Only μ r

variable {s : Supply} {μ : Metas} {fuel : Nat}

lemma UnifiesAlike.step_unify (ih : UnifiesAlike env s μ fuel) (henv : env.Scoped) (ha : a.In (env.ground next) k)
    (hb : b.In (env.ground next) k') (h : env.isDefEq fuel' next a b = some r) :
    (env.unify s (fuel + 1) next Γ a b).Only μ r := by
  cases fuel' with
  | zero => exact nomatch h
  | succ fuel' =>
    rw [isDefEq_succ] at h
    rw [Env.unify]
    refine only_get.bind (only_get.bind ?_)
    simp only [instantiate_ground μ ha, instantiate_ground μ hb]
    by_cases halpha : a.alphaEq b
    · rw [if_pos halpha] at h ⊢
      obtain rfl := Option.some.inj h
      exact only_pure true
    · rw [if_neg halpha] at h ⊢
      simp only [bind_eq_some_iff] at h
      obtain ⟨a', ha', b', hb', h⟩ := h
      refine (only_solve? ha s μ fuel next Γ b).bind ((only_solve? hb s μ fuel next Γ a).bind ?_)
      refine only_lift_bind fun a₁ ha₁ => only_lift_bind fun b₁ hb₁ => ?_
      obtain rfl := whnfCore_unique ha' ha₁
      obtain rfl := whnfCore_unique hb' hb₁
      have hina := (steps_of_whnfCore ha').in_scope (henv.admits_ground next) ha
      have hinb := (steps_of_whnfCore hb').in_scope (henv.admits_ground next) hb
      have hnorma := coreNormal_of_whnfCore ha'
      have hnormb := coreNormal_of_whnfCore hb'
      split
      · next hsame =>
        -- nothing was reduced, so the normal forms differ as the terms do
        rw [Bool.and_eq_true, alphaEq_iff, alphaEq_iff] at hsame
        have hdiffer : ¬ a'.Alike b' := fun halike =>
          halpha (alphaEq_iff.mpr ((hsame.1.symm.trans halike).trans hsame.2))
        exact ih.core hina hinb hnorma hnormb hdiffer h
      · obtain ⟨fuel₁, hnorma⟩ := hnorma
        obtain ⟨fuel₂, hnormb⟩ := hnormb
        obtain ⟨fuel₃, h⟩ := isDefEq_of_core hnorma hnormb h
        exact ih.unify hina hinb h

lemma UnifiesAlike.step_spines (ih : UnifiesAlike env s μ fuel) (ha : a.In (env.ground next) k)
    (hb : b.In (env.ground next) k') (h : spinesEq (env.isDefEq fuel' next) a b = some r) :
    (env.unifySpines s (fuel + 1) next Γ a b).Only μ r := by
  obtain ⟨hheada, hargsa⟩ := ha.head_args
  obtain ⟨hheadb, hargsb⟩ := hb.head_args
  rw [spinesEq] at h
  rw [Env.unifySpines]
  by_cases hlen : a.args.length = b.args.length
  · rw [if_neg (not_not.mpr hlen)]
    refine (only_unifyHeads hheada hheadb μ fuel).bind ?_
    by_cases hheads : headsEq a.head b.head
    · rw [if_pos ⟨hlen, hheads⟩] at h
      rw [if_pos hheads]
      exact only_allPairs (fun a ha b hb r hr => ih.unify (hargsa a ha) (hargsb b hb) hr) h
    · rw [if_neg fun hboth => hheads hboth.2] at h
      rw [if_neg hheads]
      obtain rfl := Option.some.inj h
      exact only_pure false
  · rw [if_neg fun hboth => hlen hboth.1] at h
    rw [if_pos hlen]
    obtain rfl := Option.some.inj h
    exact only_pure false

lemma unfold_positive (h : ¬ (env.headHeight a = 0 ∧ env.headHeight b = 0)) :
    (if 0 < env.headHeight a ∧ env.headHeight b ≤ env.headHeight a then env.unfoldHead? a else none) =
      env.unfoldBeside? a b := by
  unfold unfoldBeside?
  by_cases hle : env.headHeight b ≤ env.headHeight a
  · rw [if_pos hle, if_pos ⟨by omega, hle⟩]
  · rw [if_neg hle, if_neg fun hboth => hle hboth.2]

lemma whnfCore_of_unfolded {unfolded : Option Term} (ha : env.CoreNormal a)
    (h : env.whnfUnfolded fuel a unfolded = some a') : ∃ fuel', env.whnfCore fuel' (unfolded.getD a) = some a' := by
  cases unfolded with
  | none =>
    obtain rfl := Option.some.inj h
    exact ha
  | some m => exact ⟨fuel, h⟩

lemma unfolded_in (henv : env.Scoped) (ha : a.In (env.ground next) k) :
    ((env.unfoldBeside? a b).getD a).In (env.ground next) k := by
  unfold unfoldBeside?
  split
  · cases hunfold : env.unfoldHead? a with
    | none => exact ha
    | some m => exact (steps_of_unfoldHead? hunfold).in_scope (henv.admits_ground next) ha
  · exact ha

lemma UnifiesAlike.step_delta (ih : UnifiesAlike env s μ fuel) (henv : env.Scoped) (ha : a.In (env.ground next) k)
    (hb : b.In (env.ground next) k') (hnorma : env.CoreNormal a) (hnormb : env.CoreNormal b)
    (h : env.isDefEqDelta fuel' next a b = some r) : (env.unifyDelta s fuel next Γ a b).Only μ r := by
  cases fuel' with
  | zero => exact nomatch h
  | succ fuel' =>
    rw [isDefEqDelta_succ] at h
    unfold unifyDelta
    dsimp only
    by_cases hzero : env.headHeight a = 0 ∧ env.headHeight b = 0
    · rw [if_pos (.inl hzero)] at h
      obtain rfl := Option.some.inj h
      simp only [hzero.1, hzero.2]
      exact only_pure false
    · rw [unfold_positive hzero, unfold_positive fun hboth => hzero ⟨hboth.2, hboth.1⟩]
      by_cases hnone : (env.unfoldBeside? a b).isNone ∧ (env.unfoldBeside? b a).isNone
      · rw [if_pos (.inr hnone)] at h
        obtain rfl := Option.some.inj h
        rw [if_pos (by simp [hnone.1, hnone.2])]
        exact only_pure false
      · rw [if_neg fun hstuck => hstuck.elim hzero hnone] at h
        rw [if_neg (by simpa using hnone)]
        simp only [bind_eq_some_iff] at h
        obtain ⟨a', ha', b', hb', h⟩ := h
        obtain ⟨fuel₁, ha'⟩ := whnfCore_of_unfolded hnorma ha'
        obtain ⟨fuel₂, hb'⟩ := whnfCore_of_unfolded hnormb hb'
        obtain ⟨fuel₃, h⟩ := isDefEq_of_core ha' hb' h
        exact ih.unify (unfolded_in henv ha) (unfolded_in henv hb) h

lemma UnifiesAlike.step_core (ih : UnifiesAlike env s μ fuel) (henv : env.Scoped) (ha : a.In (env.ground next) k)
    (hb : b.In (env.ground next) k') (hnorma : env.CoreNormal a) (hnormb : env.CoreNormal b) (hdiffer : ¬ a.Alike b)
    (h : env.isDefEqCore fuel' next a b = some r) : (env.unifyCore s (fuel + 1) next Γ a b).Only μ r := by
  cases fuel' with
  | zero => exact nomatch h
  | succ fuel' =>
    rw [isDefEqCore_succ, if_neg fun halpha => hdiffer (alphaEq_iff.mp halpha)] at h
    -- the two bodies of binders, after the types
    have hbinders {x : Name} {t t' m m' : Term} (ht : t.In (env.ground next) k) (ht' : t'.In (env.ground next) k')
        (hm : m.In (env.ground next) (k + 1)) (hm' : m'.In (env.ground next) (k' + 1))
        (h : ((env.isDefEq fuel' next t t').bind fun same =>
          if same then env.isDefEq fuel' (next + 1) (m.instantiate (.free ⟨next, none⟩))
            (m'.instantiate (.free ⟨next, none⟩)) else some false) = some r) :
        (do
          if ← env.unify s fuel next Γ t t' then
            let h := Local.new next x ((← get).instantiate t)
            env.unify s fuel (next + 1) (Γ.push h) (m.instantiate h.term) (m'.instantiate h.term)
          else return false : SolveM Bool).Only μ r := by
      obtain ⟨same, hsame, h⟩ := bind_eq_some_iff.mp h
      refine (ih.unify ht ht' hsame).bind ?_
      cases same with
      | true =>
        rw [← isDefEq_opened henv hm hm' x] at h
        exact only_get.bind (ih.unify (ground_opened hm (some x)) (ground_opened hm' (some x)) h)
      | false =>
        obtain rfl := Option.some.inj h
        exact only_pure false
    -- a body against a term on the hypothesis of the binder
    have heta {x : Name} {t m f : Term} {j j' : Nat} (hm : m.In (env.ground next) (j + 1))
        (hf : f.In (env.ground next) j')
        (h : env.isDefEq fuel' (next + 1) (m.instantiate (.free ⟨next, none⟩)) (f.app (.free ⟨next, none⟩)) = some r) :
        (do
          let h := Local.new next x ((← get).instantiate t)
          env.unify s fuel (next + 1) (Γ.push h) (m.instantiate h.term) (f.app h.term) : SolveM Bool).Only μ r := by
      have hf' : (app f.shift (.var 0)).In (env.ground next) (j' + 1) := ⟨hf.shift, Nat.succ_pos j'⟩
      rw [app_eq_opened, ← isDefEq_opened henv hm hf' x] at h
      have hunify := ih.unify (Γ := Γ.push (Local.new next x (μ.instantiate t))) (ground_opened hm (some x))
        (ground_opened hf' (some x)) h
      rw [← app_eq_opened] at hunify
      exact only_get.bind hunify
    induction a, b using compare_cases with
    | sorts l l' =>
      obtain rfl := Option.some.inj h
      rw [Env.unifyCore]
      exact only_unify ha hb μ fuel
    | products x i t m x' i' t' m' =>
      rw [Env.unifyCore]
      exact hbinders ha.1 hb.1 ha.2 hb.2 h
    | abstractions x t m x' t' m' =>
      rw [Env.unifyCore]
      exact hbinders ha.1 hb.1 ha.2 hb.2 h
    | etaLeft x t m b hb' =>
      rw [compareWith_etaLeft _ _ _ hb'] at h
      rw [unifyCore_etaLeft _ _ _ _ _ hb']
      exact heta ha.2 hb h
    | etaRight a x t m ha' =>
      rw [compareWith_etaRight _ _ _ ha'] at h
      rw [unifyCore_etaRight _ _ _ _ _ ha']
      exact heta hb.2 ha h
    | spines a b ha' hb' hab =>
      rw [compareWith_spines _ _ _ ha' hb' hab] at h
      rw [unifyCore_spines _ _ _ _ _ ha' hb' hab]
      obtain ⟨same, hsame, h⟩ := bind_eq_some_iff.mp h
      refine (ih.spines ha hb hsame).orRestore.bind ?_
      cases same with
      | true =>
        obtain rfl := Option.some.inj h
        exact only_pure true
      | false => exact ih.step_delta henv ha hb hnorma hnormb h

/-- The functions of unification, by induction on the fuel that they share. -/
lemma unifiesAlike (henv : env.Scoped) (s : Supply) (μ : Metas) (fuel : Nat) : UnifiesAlike env s μ fuel := by
  induction fuel with
  | zero =>
    refine ⟨fun _ _ _ => ?_, fun _ _ _ _ _ _ => ?_, fun _ _ _ => ?_⟩
    · rw [Env.unify]
      exact only_failure _
    · rw [Env.unifyCore]
      exact only_failure _
    · rw [Env.unifySpines]
      exact only_failure _
  | succ fuel ih =>
    exact ⟨ih.step_unify henv, ih.step_core henv, ih.step_spines⟩

/-- Unification and conversion are the same relation on ground terms: whatever is solved, they answer alike whenever
both give an answer, and unification records no solution. -/
theorem unify_ground_eq_isDefEq (henv : Reachable env) {n k k' : Nat} {a b : Term} (ha : a.In (env.ground n) k)
    (hb : b.In (env.ground n) k') {next next' fuel fuel' : Nat} (hnext : n ≤ next) (hnext' : n ≤ next') {s : Supply}
    {Γ : Context} {μ μ' : Metas} {r r' : Bool} (hunify : (env.unify s fuel next Γ a b).run μ = some (r, μ'))
    (htest : env.isDefEq fuel' next' a b = some r') : r = r' ∧ μ' = μ := by
  have hscoped := scoped_of_reachable henv
  have hρ : Renaming (env.ground n) next' next id :=
    ⟨fun _ _ _ _ h => h, fun _ h => Nat.lt_of_lt_of_le h hnext', fun _ h => Nat.lt_of_lt_of_le h hnext⟩
  have hsame := isDefEq_relabel (hscoped.relabels _) (hscoped.admits_ground n) hρ ha hb fuel'
  rw [relabel_id, relabel_id, htest] at hsame
  have hle := env.ground_le hnext
  exact (unifiesAlike hscoped s μ fuel).unify (ha.mono hle (Nat.le_refl k)) (hb.mono hle (Nat.le_refl k')) hsame
    r μ' hunify

/-- The double of one is unified with two by unfolding and reduction, beside a hole that has been solved. -/
theorem double_one_unified : ∃ env a b μ', Reachable env ∧ a.In (env.ground 0) 0 ∧ b.In (env.ground 0) 0 ∧
    a = .app (.const ⟨"double"⟩ []) (numberSucc numberZero) ∧ b = numberSucc (numberSucc numberZero) ∧
    (env.unify {} 20 1 {} a b).run (Metas.assign {} ⟨0, none⟩ numberZero) = some (true, μ') ∧
    env.isDefEq 20 0 a b = some true ∧ μ' = Metas.assign {} ⟨0, none⟩ numberZero := by
  let double : Term := .app (.const ⟨"double"⟩ []) (numberSucc numberZero)
  let two : Term := numberSucc (numberSucc numberZero)
  have hadd : ∃ env₁ env₂, (({} : Env).addInductive 20 0 numbers).Yields env₁ ∧
      (env₁.addDefinition 20 0 ⟨"double"⟩ [] (.arrow (.const ⟨"N"⟩ []) (.const ⟨"N"⟩ []))
        numberDouble).Yields env₂ ∧
      (∃ t, env₂.inductive? ⟨"N"⟩ = some t ∧ t.levelParams.length = 0) ∧
      ((env₂.unify {} 20 1 {} double two).run (Metas.assign {} ⟨0, none⟩ numberZero)).map Prod.fst = some true ∧
      env₂.isDefEq 20 0 double two = some true :=
    ⟨_, _, rfl, rfl, ⟨_, rfl, rfl⟩, by decide +kernel, rfl⟩
  obtain ⟨env₁, env₂, hN, hdouble, hctor, hrun, htest⟩ := hadd
  obtain ⟨⟨_, μ'⟩, hunify, rfl⟩ := Option.map_eq_some_iff.mp hrun
  have hreach : Reachable env₂ :=
    (Relation.ReflTransGen.single (.family numbers_below hN)).tail (added_numberDouble hdouble)
  have hground : ∀ l ∈ ([] : List Level), l.hasMVar = false := by simp
  have hin : double.In (env₂.ground 0) 0 := ⟨hground, ⟨hctor, hground⟩, hctor, hground⟩
  have hin' : two.In (env₂.ground 0) 0 := ⟨⟨hctor, hground⟩, ⟨hctor, hground⟩, hctor, hground⟩
  exact ⟨env₂, double, two, μ', hreach, hin, hin', rfl, rfl, hunify, htest,
    (unify_ground_eq_isDefEq hreach hin hin' (Nat.zero_le 1) (Nat.le_refl 0) hunify htest).2⟩

end Env

end ProofAssistant
