import ProofAssistant.Proofs.Failures
import ProofAssistant.Proofs.TacticRuns

/-!
# Holes that no goal stands for

Every open hole of a proof should be that of a goal, or wait for an instance. The holes that tactics declare are their
new goals (`ElabM.Refines`), but a tactic that elaborates only looks for holes in the solution, or in the equation that
it rewrites with. A hole that got elsewhere is left behind (`Elaborator.LeavesBehind`), and may come back later.
-/

namespace ProofAssistant

open Alphabet List Term FreshM

/-! ## Where a hole occurs -/

/-- The hole occurs in the term without being deferred. -/
def Term.Mentions (m : Term) (z : Id) : Prop :=
  (z, false) ∈ m.holeOccurrences

/-- The hole occurs in the target or in a hypothesis. -/
def Goal.Mentions (g : Goal) (z : Id) : Prop :=
  g.target.Mentions z ∨ ∃ x ∈ g.context.locals, x.type.Mentions z

namespace Situation

/-- The hole occurs in a solution or in a goal: one that is left, that waits for an instance, or that has been
declared. -/
def Mentions (X : Situation) (goals : List Goal) (z : Id) : Prop :=
  (∃ p ∈ X.metas.holes, p.2.Mentions z) ∨
    ∃ g, (g ∈ goals ∨ g ∈ X.metas.pending ∨ g ∈ X.supply.goals) ∧ g.Mentions z

/-- The hole is solved, is that of a goal, or waits for an instance. -/
def Tracks (X : Situation) (goals : List Goal) (z : Id) : Prop :=
  X.metas.isAssigned z = true ∨ (∃ g ∈ goals, g.id = z) ∨ ∃ g ∈ X.metas.pending, g.id = z

end Situation

/-- The holes from `n` on. -/
def Alphabet.since (n : Nat) : Alphabet where
  hole h := n ≤ h.number
  start := n
  new_hole _ h := h

/-- The holes from `n` on, of which `z` is always deferred. -/
def Alphabet.avoiding (n : Nat) (z : Id) : Alphabet where
  hole h := n ≤ h.number
  start := max n (z.number + 1)
  new_hole _ h := Nat.le_trans (Nat.le_max_left ..) h
  bare h := h ≠ z
  new_bare _ h := by rintro rfl; omega

variable {n : Nat} {z : Id}

lemma Term.over_avoiding_iff {m : Term} : m.Over (.avoiding n z) ↔ m.Over (.since n) ∧ ¬ m.Mentions z := by
  have hmentions : ¬ m.Mentions z ↔ ∀ p ∈ m.holeOccurrences, p ≠ (z, false) := forall_mem_ne'.symm
  rw [hmentions]
  refine (leafwise_over _).iff ((leafwise_over _).and (leafwise_holeOccurrences _)) (fun _ m hleaf => ?_) (k := 0)
  cases m with
  | hole h d => cases d <;> simp [Over, avoiding, since, holeOccurrences, hasHole]
  | app | lam | pi => exact hleaf.elim
  | _ => simp [Over, avoiding, since, holeOccurrences]

lemma Goal.stated_avoiding_iff {g : Goal} : g.Stated (.avoiding n z) ↔ g.Stated (.since n) ∧ ¬ g.Mentions z := by
  constructor
  · rintro ⟨hΓ, ht⟩
    refine ⟨⟨fun x hx => (over_avoiding_iff.mp (hΓ x hx)).1, (over_avoiding_iff.mp ht).1⟩, ?_⟩
    rintro (hz | ⟨x, hx, hz⟩)
    · exact (over_avoiding_iff.mp ht).2 hz
    · exact (over_avoiding_iff.mp (hΓ x hx)).2 hz
  · rintro ⟨⟨hΓ, ht⟩, hz⟩
    refine ⟨fun x hx => over_avoiding_iff.mpr ⟨hΓ x hx, fun h => hz (.inr ⟨x, hx, h⟩)⟩, ?_⟩
    exact over_avoiding_iff.mpr ⟨ht, fun h => hz (.inl h)⟩

/-- Nothing has the hole, except deferred, and it is that of no goal, nor that of the whole proof, which is
the first one. -/
structure Situation.Avoids (n : Nat) (z : Id) (goals : List Goal) (X : Situation) : Prop where
  first : z ≠ ⟨n, none⟩
  supply : X.supply.OverFrom (.avoiding n z) n
  metas : X.metas.Over (.avoiding n z)
  goals : ∀ g ∈ goals, g.Over (.avoiding n z)

namespace Situation

variable {X Y : Situation} {goals goals' others : List Goal}

/-- What is neither tracked nor occurs anywhere is avoided. -/
lemma avoids_of_not_mentions (hfirst : z ≠ ⟨n, none⟩) (hs : X.supply.OverFrom (.since n) n)
    (hμ : X.metas.Over (.since n)) (hgoals : ∀ g ∈ goals, g.Over (.since n)) (hz : ¬ X.Mentions goals z)
    (ht : ¬ X.Tracks goals z) : X.Avoids n z goals := by
  have hstated {g : Goal} (hg : g.Stated (.since n))
      (hmem : g ∈ goals ∨ g ∈ X.metas.pending ∨ g ∈ X.supply.goals) : g.Stated (.avoiding n z) :=
    Goal.stated_avoiding_iff.mpr ⟨hg, fun h => hz (.inr ⟨g, hmem, h⟩)⟩
  refine ⟨hfirst, ?_, ?_, ?_⟩
  · exact ⟨hs.start, fun g hg hn => hstated (hs.goals g hg hn) (.inr (.inr hg)), .inl trivial⟩
  · refine ⟨fun p hp => ?_, fun g hg => ?_⟩
    · exact over_avoiding_iff.mpr ⟨hμ.holes p hp, fun h => hz (.inl ⟨p, hp, h⟩)⟩
    · have hg' := hμ.pending g hg
      exact ⟨hstated hg'.toStated (.inr (.inl hg)), hg'.hole, fun hid => ht (.inr (.inr ⟨g, hg, hid⟩))⟩
  · intro g hg
    have hg' := hgoals g hg
    exact ⟨hstated hg'.toStated (.inl hg), hg'.hole, fun hid => ht (.inr (.inl ⟨g, hg, hid⟩))⟩

lemma Avoids.since (h : X.Avoids n z goals) :
    X.supply.OverFrom (.since n) n ∧ X.metas.Over (.since n) ∧ ∀ g ∈ goals, g.Over (.since n) := by
  have hover {g : Goal} (hg : g.Over (.avoiding n z)) : g.Over (.since n) :=
    ⟨(Goal.stated_avoiding_iff.mp hg.toStated).1, hg.hole, trivial⟩
  refine ⟨⟨h.supply.start, fun g hg hn => ?_, .inl trivial⟩,
    ⟨fun p hp => ?_, fun g hg => hover (h.metas.pending g hg)⟩, ?_⟩
  · exact (Goal.stated_avoiding_iff.mp (h.supply.goals g hg hn)).1
  · exact (over_avoiding_iff.mp (h.metas.holes p hp)).1
  · exact fun g hg => hover (h.goals g hg)

lemma Tracks.append (h : X.Tracks goals z) (others : List Goal) : X.Tracks (goals ++ others) z :=
  h.imp_right fun h => h.imp_left fun ⟨g, hg, hid⟩ => ⟨g, mem_append_left _ hg, hid⟩

lemma Avoids.append (h : X.Avoids n z goals) (hothers : ∀ g ∈ others, g.Over (.avoiding n z)) :
    X.Avoids n z (goals ++ others) :=
  ⟨h.first, h.supply, h.metas, forall_mem_append.mpr ⟨h.goals, hothers⟩⟩

/-- A hole stays tracked as long as goals are accounted for. -/
lemma Tracks.of_accounts (h : X.Tracks goals z) (hμ : X.metas.Grows Y.metas)
    (hgoals : Y.metas.Accounts goals goals') : Y.Tracks goals' z := by
  rcases h with hsolved | ⟨g, hg, rfl⟩ | ⟨g, hg, rfl⟩
  · exact .inl (hμ.solved z hsolved)
  · exact (hgoals g hg).imp_right .inl
  · exact (hμ.pending g hg).elim (fun hg => .inr (.inr ⟨g, hg, rfl⟩)) .inl

end Situation

/-! ## Steps that refine goals -/

/-- The alphabet restricts nothing but which holes there are. -/
structure Alphabet.Permissive (A : Alphabet) : Prop where
  const : ∀ c, A.const c
  family : ∀ t, A.family t
  deferred : A.deferred

lemma Alphabet.Permissive.covers {A : Alphabet} (hA : A.Permissive) {E : Elaborator}
    (hE : Env.Reachable E.env) : A.Covers E :=
  covers_of_reachable hE hA.const hA.family

lemma Alphabet.permissive_avoiding (n : Nat) (z : Id) : (avoiding n z).Permissive :=
  ⟨fun _ => trivial, fun _ => trivial, trivial⟩

lemma Alphabet.permissive_since (n : Nat) : (since n).Permissive :=
  ⟨fun _ => trivial, fun _ => trivial, trivial⟩

lemma Alphabet.permissive_all (n : Nat) : (all n).Permissive :=
  ⟨fun _ => trivial, fun _ => trivial, trivial⟩

namespace Tactic

/-- The terms in the tactic have no holes. -/
def HoleFree (t : Tactic) : Prop :=
  ∀ A : Alphabet, A.Permissive → t.Over A

lemma Within.holeFree {ts : List Tactic} (hts : ∀ t ∈ ts, t.HoleFree) {t : Tactic} (h : t.Within ts) :
    t.HoleFree := by
  induction h with
  | mem h => exact hts _ h
  | seq _ hmem ih =>
    intro A hA
    cases ih A hA with
    | seq h => exact h _ hmem
  | loop _ ih =>
    intro A hA
    cases ih A hA with
    | loop h => exact h
  | focus _ ih =>
    intro A hA
    cases ih A hA with
    | focus h => exact h
  | all _ ih =>
    intro A hA
    cases ih A hA with
    | all h => exact h
  | orElseLeft _ ih =>
    intro A hA
    cases ih A hA with
    | orElse h _ => exact h
  | orElseRight _ ih =>
    intro A hA
    cases ih A hA with
    | orElse _ h => exact h

end Tactic

/-- The hole is tracked, or nothing has it. -/
def Situation.Safe (n : Nat) (z : Id) (goals : List Goal) (X : Situation) : Prop :=
  X.Tracks goals z ∨ X.Avoids n z goals

namespace Elaborator

variable {E : Elaborator} {ts : List Tactic} {X₀ X Y : Situation} {goals goals' others : List Goal}
variable {fuel : Nat} {t : Tactic}

/-- A step that refines goals loses sight of no hole: the new ones are goals. -/
lemma safe_of_refines {x : ElabM (List Goal)} (hx : ∀ (A : Alphabet) n μ₀, A.Permissive →
      (∀ h : Id, n ≤ h.number → A.hole h) → (∀ g ∈ goals, g.Over A) → x.Refines A n μ₀ goals)
    (h : x.Ends X goals' Y) (hsafe : X.Safe n z (goals ++ others)) : Y.Safe n z (goals' ++ others) := by
  rcases hsafe with htracks | havoids
  · obtain ⟨hgrows, haccounts⟩ := ElabM.accounts_of_refines (fun n μ₀ =>
      hx _ n μ₀ (permissive_all n) (fun _ _ => trivial) fun g _ => g.over_all) h
    exact .inl (htracks.of_accounts hgrows (haccounts.append others))
  · have hgoals := forall_mem_append.mp havoids.goals
    obtain ⟨new, hnew⟩ := hx _ n {} (permissive_avoiding n z) (fun _ h => h) hgoals.1
      X havoids.supply ⟨havoids.metas, .empty _⟩ goals' Y h
    by_cases hz : ∃ g ∈ new, g.id = z
    · obtain ⟨g, hg, rfl⟩ := hz
      rcases hnew.accounts g (mem_append_left _ hg) with hsolved | ⟨g', hg', hid⟩
      · exact .inl (.inl hsolved)
      · exact .inl (.inr (.inl ⟨g', mem_append_left _ hg', hid⟩))
    · obtain ⟨hs, hμ, hgoals'⟩ := hnew.conforms fun g hg hid => hz ⟨g, hg, hid⟩
      exact .inr (.append ⟨havoids.first, hs, hμ.toOver, hgoals'⟩ hgoals.2)

lemma safe_intro (hE : Env.Reachable E.env) {names : List Name} (h : (E.intro names goals).Ends X goals' Y)
    (hsafe : X.Safe n z (goals ++ others)) : Y.Safe n z (goals' ++ others) := by
  have hone {name : Option Name} {goals goals' : List Goal} {X Y : Situation}
      (h : (E.introOne name goals).Ends X goals' Y) (hsafe : X.Safe n z (goals ++ others)) :
      Y.Safe n z (goals' ++ others) := by
    refine safe_of_refines (fun A n μ₀ hA hn hgoals => ?_) h hsafe
    exact refines_introOne (hA.covers hE) hn name hgoals
  unfold intro at h
  split at h
  · exact hone h hsafe
  · exact ElabM.of_ends_foldlM (J := fun goals X => X.Safe n z (goals ++ others))
      (fun _ _ _ _ _ _ h => hone h) h hsafe

/-! ## Holes left behind -/

/-- Runs of the tactics, and of parts of them, lead from one situation to another. -/
def Leads (E : Elaborator) (ts : List Tactic) : Situation → Situation → Prop :=
  Relation.ReflTransGen fun X Y => ∃ fuel t goals goals', t.Within ts ∧ (E.run fuel t goals).Ends X goals' Y

/-- The tactic elaborates an expression in which the hole is declared, and then loses sight of it: it is not solved, no
goal and does not wait, and where the tactic looks for holes it has not found it. -/
structure LeavesBehind (E : Elaborator) (fuel : Nat) (t : Tactic) (goals : List Goal) (X : Situation)
    (goals' : List Goal) (Y : Situation) (z : Id) : Prop where
  ends : (E.run (fuel + 1) t goals).Ends X goals' Y
  new : X.supply.next ≤ z.number
  mentions : Y.Mentions goals' z
  untracked : ¬ Y.Tracks goals' z
  unseen : (∃ es, t = .simp es) ∨ ∃ c, E.LooksIn ⟨E.visit fuel, E.run fuel⟩ goals X t c ∧
    ∀ g ∈ Y.metas.openGoals Y.supply c, g.id ≠ z

/-- One of the tactics on the way has left the hole behind. -/
def LeftBehind (E : Elaborator) (ts : List Tactic) (X₀ X : Situation) (z : Id) : Prop :=
  ∃ fuel t goals X₁ goals' Y₁, t.Within ts ∧ E.Leads ts X₀ X₁ ∧
    E.LeavesBehind fuel t goals X₁ goals' Y₁ z ∧ E.Leads ts Y₁ X

/-- What can be said of a hole on the way from `X₀`: it is tracked, has been left behind, or nothing has
it. -/
structure Explained (E : Elaborator) (ts : List Tactic) (X₀ : Situation) (n : Nat) (z : Id)
    (goals : List Goal) (X : Situation) : Prop where
  reached : E.Leads ts X₀ X
  hole : X.Safe n z goals ∨ E.LeftBehind ts X₀ X z

lemma leads_of_run (ht : t.Within ts) (h : (E.run fuel t goals).Ends X goals' Y) : E.Leads ts X Y :=
  .single ⟨fuel, t, goals, goals', ht, h⟩

lemma LeftBehind.leads (h : E.LeftBehind ts X₀ X z) (hlead : E.Leads ts X Y) : E.LeftBehind ts X₀ Y z := by
  obtain ⟨fuel, t, goals, X₁, goals', Y₁, ht, hX₁, hleaves, hY₁⟩ := h
  exact ⟨fuel, t, goals, X₁, goals', Y₁, ht, hX₁, hleaves, hY₁.trans hlead⟩

/-- Only expressions bring holes that are left behind. -/
lemma LeftBehind.elaborates (h : E.LeftBehind ts X₀ X z) : ∃ t : Tactic, t.Within ts ∧ t.Elaborates := by
  obtain ⟨fuel, t, goals, X₁, goals', Y₁, ht, -, hleaves, -⟩ := h
  refine ⟨t, ht, ?_⟩
  rcases hleaves.unseen with ⟨es, rfl⟩ | ⟨c, hc, -⟩
  · trivial
  · cases hc <;> trivial

lemma Explained.of_safe (ht : t.Within ts) (hex : E.Explained ts X₀ n z (goals ++ others) X)
    (h : (E.run fuel t goals).Ends X goals' Y) (hsafe : X.Safe n z (goals ++ others) → Y.Safe n z (goals' ++ others)) :
    E.Explained ts X₀ n z (goals' ++ others) Y where
  reached := hex.reached.trans (leads_of_run ht h)
  hole := hex.hole.imp hsafe fun hleft => hleft.leads (leads_of_run ht h)

/-- A run of a tactic that elaborates: a hole that it declares and that is then somewhere, but not tracked,
is left behind by it. -/
lemma Explained.of_elaborates (hE : Env.Reachable E.env) (hts : ∀ t ∈ ts, t.HoleFree) (ht : t.Within ts)
    (hex : E.Explained ts X₀ n z (goals ++ others) X) (h : (E.run (fuel + 1) t goals).Ends X goals' Y)
    (haccounts : Y.metas.Accounts goals goals') (hlooks : (∃ es, t = .simp es) ∨
      ∃ c, E.LooksIn ⟨E.visit fuel, E.run fuel⟩ goals X t c ∧ Y.Gathers goals' c) :
    E.Explained ts X₀ n z (goals' ++ others) Y := by
  have hlead := hex.reached.trans (leads_of_run ht h)
  have hkeeps {A : Alphabet} (hA : A.Permissive) (hgoals : ∀ g ∈ goals, g.Over A) :
      ElabM.Keeps (A.invariant {}) (E.run (fuel + 1) t goals) fun goals => ∀ g ∈ goals, g.Over A :=
    (recursion_over (hA.covers hE) (fuel + 1)).run (ht.holeFree hts A hA) hgoals
  rcases hex.hole with (htracks | havoids) | hleft
  · exact ⟨hlead, .inl (.inl (htracks.of_accounts (grows_of_run h).2 (haccounts.append others)))⟩
  · have hgoals := forall_mem_append.mp havoids.goals
    by_cases hnew : X.supply.next ≤ z.number
    · obtain ⟨hs, hμ, hsince⟩ := havoids.since
      have hμ : X.metas.OverSince (.since n) {} := ⟨hμ, .empty _⟩
      obtain ⟨hs', hμ', hgoals'⟩ := (hkeeps (permissive_since n)
        fun g hg => hsince g (mem_append_left _ hg)).of_ends hs hμ h
      by_cases htracks : Y.Tracks goals' z
      · exact ⟨hlead, .inl (.inl (htracks.append others))⟩
      by_cases hz : Y.Mentions goals' z
      · refine ⟨hlead, .inr ⟨fuel, t, goals, X, goals', Y, ht, hex.reached, ?_, .refl⟩⟩
        refine ⟨h, hnew, hz, htracks, ?_⟩
        refine hlooks.imp_right fun ⟨c, hc, hgathers⟩ => ⟨c, hc, fun g hg hid => htracks ?_⟩
        -- an open hole of the term is a goal or waits
        rcases hgathers g hg with hg | ⟨p, hp, hpg⟩
        · exact .inr (.inl ⟨g, hg, hid⟩)
        · exact .inr (.inr ⟨p, hp, hpg.trans hid⟩)
      · have havoids' := Situation.avoids_of_not_mentions havoids.first hs' hμ'.toOver hgoals' hz htracks
        exact ⟨hlead, .inl (.inr (havoids'.append hgoals.2))⟩
    · -- an older hole cannot come back
      have hs : X.supply.Over (.avoiding n z) :=
        ⟨Nat.max_le.mpr ⟨havoids.supply.start, by omega⟩, havoids.supply.goals, .inl trivial⟩
      have hμ : X.metas.OverSince (.avoiding n z) {} := ⟨havoids.metas, .empty _⟩
      obtain ⟨hs', hμ', hgoals'⟩ := (hkeeps (permissive_avoiding n z) hgoals.1).of_ends hs hμ h
      have hn : n ≤ Y.supply.next := Nat.le_trans (Nat.le_max_left ..) hs'.start
      have hs' : Y.supply.OverFrom (.avoiding n z) n := ⟨hn, hs'.goals, .inl trivial⟩
      exact ⟨hlead, .inl (.inr (.append ⟨havoids.first, hs', hμ'.toOver, hgoals'⟩ hgoals.2))⟩
  · exact ⟨hlead, .inr (hleft.leads (leads_of_run ht h))⟩

/-! ## Runs of tactics -/

/-- In the same situation, goals may be given up for others that account for them. -/
lemma Explained.regroup (hex : E.Explained ts X₀ n z goals X) (haccounts : X.metas.Accounts goals goals')
    (hover : X.Avoids n z goals → ∀ g ∈ goals', g.Over (.avoiding n z)) : E.Explained ts X₀ n z goals' X := by
  refine ⟨hex.reached, hex.hole.imp_left fun hsafe => ?_⟩
  rcases hsafe with htracks | havoids
  · exact .inl (htracks.of_accounts (.refl _) haccounts)
  · exact .inr ⟨havoids.first, havoids.supply, havoids.metas, hover havoids⟩

lemma regroups_explained : Regroups (E.Explained ts X₀ n z) where
  perm hex h := hex.regroup (fun g hg => .inr ⟨g, h.mem_iff.mp hg, Eq.refl _⟩) fun havoids g hg =>
    havoids.goals g (h.mem_iff.mpr hg)
  solved {g goals X} hex hsolved := by
    refine hex.regroup (fun g' hg' => ?_) fun havoids g' hg' => havoids.goals g' (mem_cons_of_mem g hg')
    rcases mem_cons.mp hg' with rfl | hg'
    · exact .inl hsolved
    · exact .inr ⟨g', hg', Eq.refl _⟩
  instantiate {g g' goals X} hex h := by
    refine hex.regroup (fun g₁ hg₁ => ?_) fun havoids => ?_
    · rcases mem_cons.mp hg₁ with rfl | hg₁
      · exact .inr ⟨g', mem_cons_self, id_of_instantiateGoal h⟩
      · exact .inr ⟨g₁, mem_cons_of_mem g' hg₁, Eq.refl _⟩
    · have hgoals := forall_mem_cons.mp havoids.goals
      have hμ : X.metas.OverSince (.avoiding n z) {} := ⟨havoids.metas, .empty _⟩
      obtain ⟨-, -, hg, -⟩ := (keeps_instantiateGoal hgoals.1).of_ends havoids.supply hμ h
      exact forall_mem_cons.mpr ⟨hg, hgoals.2⟩

/-- Every hole stays explained along a run of a tactic. -/
lemma explained_run (hE : Env.Reachable E.env) (hts : ∀ t ∈ ts, t.HoleFree) (fuel : Nat) (ht : t.Within ts) :
    Follows (E.Explained ts X₀ n z) (E.run fuel t) := by
  refine follows_run regroups_explained (fun fuel t ht hbasic => ?_) fuel ht
  intro goals others goals' X Y hrun hex
  have h : (E.runForm ⟨E.visit fuel, E.run fuel⟩ t goals).Ends X goals' Y := hrun
  cases t with
  | intro names => exact hex.of_safe ht hrun (safe_intro hE h)
  | cases x names | induction x names =>
    refine hex.of_safe ht hrun (safe_of_refines (fun A n μ₀ hA hn => ?_) h)
    exact refines_eliminate (hA.covers hE) hn _ x names
  | split =>
    exact hex.of_safe ht hrun (safe_of_refines (fun A n μ₀ hA hn => refines_split (hA.covers hE) hn) h)
  | assumption =>
    exact hex.of_safe ht hrun (safe_of_refines (fun A n μ₀ hA hn => refines_assumption (hA.covers hE) hn) h)
  | rfl => exact hex.of_safe ht hrun (safe_of_refines (fun A n μ₀ hA hn => refines_rfl (hA.covers hE) hn) h)
  | decide =>
    exact hex.of_safe ht hrun (safe_of_refines (fun A n μ₀ hA hn => refines_decide (hA.covers hE) hn) h)
  | deferred =>
    exact hex.of_safe ht hrun (safe_of_refines (fun A n μ₀ hA hn => refines_defer hA.deferred hn) h)
  | exact e =>
    obtain ⟨c, hcloses⟩ := closes_of_exact h
    exact hex.of_elaborates hE hts ht hrun hcloses.accounts (.inr ⟨c, hcloses.looks, hcloses.gathers⟩)
  | apply e =>
    obtain ⟨c, hcloses⟩ := closes_of_apply h
    exact hex.of_elaborates hE hts ht hrun hcloses.accounts (.inr ⟨c, hcloses.looks, hcloses.gathers⟩)
  | rw e reverse occurrence =>
    obtain ⟨c, g', hcloses, -⟩ := closes_of_rw (fun n => recursion_over (covers_all n E) fuel) h
    exact hex.of_elaborates hE hts ht hrun hcloses.accounts (.inr ⟨c, hcloses.looks, hcloses.gathers⟩)
  | simp es =>
    have haccounts := accounts_of_simp (fun n => recursion_over (covers_all n E) fuel) h
    exact hex.of_elaborates hE hts ht hrun haccounts (.inl ⟨es, Eq.refl _⟩)
  | seq _ | loop _ | focus _ | all _ | orElse _ _ => exact hbasic.elim

/-! ## Proofs in progress -/

variable {Γ : Context} {target : Term} {s₀ s : Supply} {p : ProofState}

/-- A proof of the target, begun from `s₀`, is at `p` after runs of the tactics in any order. -/
inductive Reaches (E : Elaborator) (ts : List Tactic) (Γ : Context) (target : Term) (s₀ : Supply) :
    ProofState → Supply → Prop
  | start {p : ProofState} {s : Supply} : (startProof Γ target).Ends s₀ p s → Reaches E ts Γ target s₀ p s
  | step {p p' : ProofState} {s s' : Supply} {t : Tactic} : Reaches E ts Γ target s₀ p s → t ∈ ts →
      (E.runTactic t p).Ends s p' s' → Reaches E ts Γ target s₀ p' s'

/-- The situation in which a proof begins. -/
def begun (Γ : Context) (target : Term) (s₀ : Supply) : Situation :=
  ⟨(s₀.declare Γ target).2, {}⟩

/-- At the start the first hole is the goal, and nothing has any other. -/
lemma safe_begun (hΓ : ∀ x ∈ Γ.locals, x.type.hasHole = false) (htarget : target.hasHole = false)
    (hs₀ : ∀ g ∈ s₀.goals, g.id.number < s₀.next) (z : Id) :
    (begun Γ target s₀).Safe s₀.next z [(s₀.declare Γ target).1] := by
  by_cases hfirst : z = ⟨s₀.next, none⟩
  · exact .inl (.inr (.inl ⟨_, mem_cons_self, hfirst.symm⟩))
  · have hroot : (s₀.declare Γ target).1.Over (.avoiding s₀.next z) :=
      ⟨⟨fun x hx => over_of_hasHole (fun _ => trivial) (fun _ => trivial) (hΓ x hx),
        over_of_hasHole (fun _ => trivial) (fun _ => trivial) htarget⟩, Nat.le_refl _, Ne.symm hfirst⟩
    refine .inr ⟨hfirst, ⟨Nat.le_succ _, fun g hg hid => ?_, .inl trivial⟩, ?_, forall_mem_singleton.mpr hroot⟩
    · rcases mem_cons.mp hg with rfl | hg
      · exact hroot.toStated
      · -- goals from before the proof are not looked at
        exact absurd (hs₀ g hg) (Nat.not_lt.mpr hid)
    · exact .mk (fun _ h => nomatch h) fun _ h => nomatch h

lemma explained_of_reaches (hE : Env.Reachable E.env) (hts : ∀ t ∈ ts, t.HoleFree)
    (hΓ : ∀ x ∈ Γ.locals, x.type.hasHole = false) (htarget : target.hasHole = false)
    (hs₀ : ∀ g ∈ s₀.goals, g.id.number < s₀.next) (h : E.Reaches ts Γ target s₀ p s) (z : Id) :
    p.root = (s₀.declare Γ target).1 ∧ E.Explained ts (begun Γ target s₀) s₀.next z p.goals ⟨s, p.metas⟩ := by
  induction h with
  | start h =>
    obtain ⟨g, s₁, hg, hp⟩ := h.bind
    obtain ⟨rfl, rfl⟩ := hp.pure
    obtain ⟨rfl, rfl⟩ := Prod.mk.inj (ends_modifyGet.mp hg)
    exact ⟨Eq.refl _, .refl, .inl (safe_begun hΓ htarget hs₀ z)⟩
  | @step p p' s s' t _ ht h ih =>
    obtain ⟨⟨goals, μ⟩, s₁, hrun, hp⟩ := h.bind
    obtain ⟨rfl, rfl⟩ := hp.pure
    have hstep := explained_run hE hts E.fuel (.mem ht) p.goals [] goals ⟨s, p.metas⟩ ⟨s₁, μ⟩ hrun
      (by rw [append_nil]; exact ih.2)
    rw [append_nil] at hstep
    exact ⟨ih.1, hstep⟩

/-- What is open in a term that avoids every hole which the situation avoids. -/
lemma Explained.of_mentions (hex : E.Explained ts X₀ n z goals X) {m : Term}
    (hm : X.Avoids n z goals → m.Over (.avoiding n z)) (hz : m.Mentions z) (hopen : X.metas.isAssigned z = false) :
    (∃ g ∈ goals, g.id = z) ∨ (∃ g ∈ X.metas.pending, g.id = z) ∨ E.LeftBehind ts X₀ X z := by
  rcases hex.hole with ((hsolved | hgoal | hwaits) | havoids) | hleft
  · simp [hopen] at hsolved
  · exact .inl hgoal
  · exact .inr (.inl hwaits)
  · exact absurd hz (over_avoiding_iff.mp (hm havoids)).2
  · exact .inr (.inr hleft)

/-- Every open hole of a proof is that of a goal, waits for an instance, or has been left behind by a tactic. So if no
goal is left and nothing waits, what is open was left behind, also the hole for which the proof cannot be finished.
Tactics that elaborate no expression leave nothing behind. -/
theorem open_hole_tracked_or_left_behind (hE : Env.Reachable E.env) (hts : ∀ t ∈ ts, t.HoleFree)
    (hΓ : ∀ x ∈ Γ.locals, x.type.hasHole = false) (htarget : target.hasHole = false)
    (hs₀ : ∀ g ∈ s₀.goals, g.id.number < s₀.next) (h : E.Reaches ts Γ target s₀ p s) :
    (∀ z, p.proof.Mentions z → p.metas.isAssigned z = false →
      (∃ g ∈ p.goals, g.id = z) ∨ (∃ g ∈ p.metas.pending, g.id = z) ∨
        E.LeftBehind ts (begun Γ target s₀) ⟨s, p.metas⟩ z) ∧
    (p.isDone = true → p.metas.pending = [] →
      (∀ z, p.proof.Mentions z → p.metas.isAssigned z = false →
        E.LeftBehind ts (begun Γ target s₀) ⟨s, p.metas⟩ z) ∧
      ∀ e g, (E.qed p).Fails s e → e.Undetermined g →
        E.LeftBehind ts (begun Γ target s₀) ⟨s, p.metas⟩ g.id) ∧
    ((∀ t : Tactic, t.Within ts → ¬ t.Elaborates) →
      ∀ z, ¬ E.LeftBehind ts (begun Γ target s₀) ⟨s, p.metas⟩ z) := by
  have hex := explained_of_reaches hE hts hΓ htarget hs₀ h
  have hproof {z : Id} (havoids : Situation.Avoids s₀.next z p.goals ⟨s, p.metas⟩) :
      p.proof.Over (.avoiding s₀.next z) := by
    refine havoids.metas.instantiate ?_
    rw [(hex z).1]
    exact Goal.over_holeAs (Nat.le_refl _) (by simp) fun _ => Ne.symm havoids.first
  have hopen (z : Id) (hz : p.proof.Mentions z) (hz' : p.metas.isAssigned z = false) :=
    (hex z).2.of_mentions hproof hz hz'
  refine ⟨hopen, fun hdone hpending => ?_, fun hplain z hleft => ?_⟩
  · have hgoals : p.goals = [] := List.isEmpty_iff.mp hdone
    refine ⟨fun z hz hz' => by simpa [hgoals, hpending] using hopen z hz hz', fun e g hfail he => ?_⟩
    have hleft {m : Term} (hm : ∀ {z}, Situation.Avoids s₀.next z p.goals ⟨s, p.metas⟩ →
          m.Over (.avoiding s₀.next z)) (hg : g ∈ p.metas.openGoals s (p.metas.instantiate m)) :
        E.LeftBehind ts (begun Γ target s₀) ⟨s, p.metas⟩ g.id := by
      obtain ⟨hhole, hg', -⟩ := Metas.of_mem_openGoals hg
      have htracked := (hex g.id).2.of_mentions
        (fun havoids => havoids.metas.instantiate (havoids.metas.instantiate (hm havoids)))
        (Term.holes_subset _ hhole) hg'
      simpa [hgoals, hpending] using htracked
    rcases List.mem_append.mp (mem_openGoals_of_qed hdone hpending hfail he) with hg | hg
    · exact hleft hproof hg
    · refine hleft (fun _ => ?_) hg
      rw [(hex g.id).1]
      exact Term.over_of_hasHole (fun _ => trivial) (fun _ => trivial) htarget
  · obtain ⟨t, ht, helab⟩ := hleft.elaborates
    exact hplain t ht helab

/-- A proof of `A → A` by a term of the type `(fun x : Type => A) _ → A`. The hole in the annotation occurs only in the
type of the goal that is left, so it is no goal, and introducing `h` puts it into the proof, which cannot be finished.
-/
theorem annotation_leaves_hole_behind :
    let E : Elaborator := { env := {}, fuel := 8 }
    let type : Term := .sort (.succ .zero)
    let A : Local := .new 0 ⟨"A"⟩ (.sort .zero)
    let constant : Expr := .lam ⟨"x"⟩ (some (.sort (.succ .zero))) (.ident ⟨"A"⟩)
    let annotated : Expr := .annot .hole (.pi ⟨"h"⟩ false (.app constant .hole) (.ident ⟨"A"⟩))
    let script : Tactic := .seq [.exact annotated, .intro [⟨"h"⟩], .exact (.ident ⟨"h"⟩)]
    let g₁ : Goal := ⟨⟨1, none⟩, ⟨[A]⟩, .pi ⟨"h"⟩ false A.term A.term⟩
    let g₃ : Goal := ⟨⟨3, none⟩, ⟨[A]⟩, type⟩
    let domain : Term := .app (.lam ⟨"x"⟩ type A.term) g₃.hole
    let h : Local := .new 6 ⟨"h"⟩ domain
    let g₅ : Goal := ⟨⟨5, none⟩, ⟨[A]⟩, .pi ⟨"h"⟩ false domain A.term⟩
    let g₇ : Goal := ⟨⟨7, none⟩, ⟨[A, h]⟩, A.term⟩
    let μ : Metas := { holes := [(g₇.id, h.term.abs [A, h]), (g₅.id, (g₇.hole.abs [h]).abs [A]),
      (g₁.id, g₅.hole.abs [A])] }
    let p : ProofState := ⟨[], μ, g₁⟩
    let s : Supply := ⟨8, [g₇, g₅, g₃, g₁]⟩
    E.Reaches [script] ⟨[A]⟩ g₁.target ⟨1, []⟩ p s ∧ p.isDone = true ∧ p.metas.pending = [] ∧
      p.proof.Mentions g₃.id ∧ p.metas.isAssigned g₃.id = false ∧
      (E.qed p).Fails s (.elaboration ⟨.unresolvedHole g₃, g₃.context⟩) ∧
      E.LeftBehind [script] (begun ⟨[A]⟩ g₁.target ⟨1, []⟩) ⟨s, p.metas⟩ g₃.id := by
  intro E type A constant annotated script g₁ g₃ domain h g₅ g₇ μ p s
  have hstart : (startProof ⟨[A]⟩ g₁.target).Ends ⟨1, []⟩ (.start g₁ {}) ⟨2, [g₁]⟩ := by
    unfold FreshM.Ends Fueled.Yields; cbv
  have hrun : (E.runTactic script (.start g₁ {})).Ends ⟨2, [g₁]⟩ p s := by
    unfold FreshM.Ends Fueled.Yields; cbv
  have hfail : (E.qed p).Fails s (.elaboration ⟨.unresolvedHole g₃, g₃.context⟩) := by
    unfold FreshM.Fails Fueled.Fails; cbv
  have hreaches : E.Reaches [script] ⟨[A]⟩ g₁.target ⟨1, []⟩ p s :=
    .step (.start hstart) List.mem_cons_self hrun
  have hscript : script.HoleFree := by
    intro B hB
    refine .seq fun t ht => ?_
    simp only [List.mem_cons, List.not_mem_nil, or_false] at ht
    rcases ht with rfl | rfl | rfl
    · have hconstant : constant.Over B := .lam (fun t ht => Option.some.inj ht ▸ .sort) (.ident (hB.const _))
      exact .exact (.annot .hole (.pi (.app hconstant .hole) (.ident (hB.const _))))
    · exact .intro
    · exact .exact (.ident (hB.const _))
  have hE : Env.Reachable E.env := .refl
  have hleft := (open_hole_tracked_or_left_behind hE (List.forall_mem_singleton.mpr hscript) (by decide)
    (by decide) (List.forall_mem_nil _) hreaches).2.1 (Eq.refl _) (Eq.refl _)
  refine ⟨hreaches, Eq.refl _, Eq.refl _, ?_, Eq.refl _, hfail, hleft.2 _ g₃ hfail ⟨_, Eq.refl _⟩⟩
  unfold Term.Mentions
  decide +kernel

end Elaborator

end ProofAssistant
