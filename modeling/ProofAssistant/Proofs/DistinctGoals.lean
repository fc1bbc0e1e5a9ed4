import ProofAssistant.Proofs.UntrackedHoles

/-!
# Goals that are listed once

A hole should be that of one goal only, and not be solved. The second is seen to at the end of every step: goals
that have been solved are dropped. The first holds of steps whose new goals are declared by them
(`Situation.Renews`). A step that elaborates takes its new goals from a term, and does not ask whether a hole
that is open there is already that of a goal which waits (`Elaborator.Repeats`).
-/

namespace ProofAssistant

open List Alphabet ElabM Option Metas

variable {g : Goal}

namespace FreshM

variable {α : Type} {x : FreshM α} {s : Supply}

/-- A run that has been evaluated. -/
lemma exists_ends_of_run {β : Type} {f : α → β} {b : β}
    (h : ((x.run s).run.bind Except.toOption).map (fun r => f r.1) = some b) : ∃ a s', x.Ends s a s' ∧ f a = b := by
  obtain ⟨⟨a, s'⟩, hbind, hb⟩ := map_eq_some_iff.mp h
  obtain ⟨r, hr, hok⟩ := bind_eq_some_iff.mp hbind
  cases r with
  | error e => simp [Except.toOption] at hok
  | ok r =>
    obtain rfl := some.inj hok
    exact ⟨a, s', hr, hb⟩

end FreshM

/-- The goals that a step leaves are old ones, and new ones with distinct new numbers. If none was solved before, none
is now. -/
structure Situation.Renews (X : Situation) (goals : List Goal) (Y : Situation) (goals' : List Goal) : Prop where
  next : X.supply.next ≤ Y.supply.next
  ids : ∃ new, Id.Between X.supply.next Y.supply.next new ∧
    (goals'.map Goal.id).Subperm (new ++ goals.map Goal.id)
  opened : (∀ g ∈ goals, X.metas.isAssigned g.id = false) → ∀ g ∈ goals', Y.metas.isAssigned g.id = false

namespace Situation.Renews

variable {X Y Z : Situation} {goals goals' goals'' : List Goal}

lemma refl (X : Situation) (goals : List Goal) : X.Renews goals X goals :=
  ⟨Nat.le_refl _, ⟨[], .nil _ _, (List.Perm.refl _).subperm⟩, id⟩

lemma trans (h : X.Renews goals Y goals') (h' : Y.Renews goals' Z goals'') : X.Renews goals Z goals'' := by
  obtain ⟨new, hnew, hids⟩ := h.ids
  obtain ⟨new', hnew', hids'⟩ := h'.ids
  refine ⟨h.next.trans h'.next, ⟨new ++ new', hnew.append hnew' h.next h'.next, ?_⟩, fun hopen => h'.opened (h.opened hopen)⟩
  refine hids'.trans ?_
  have hstep : (new' ++ goals'.map Goal.id).Subperm (new' ++ (new ++ goals.map Goal.id)) :=
    List.Subperm.append (List.Perm.refl _).subperm hids
  refine hstep.trans (List.Perm.subperm ?_)
  grind

end Situation.Renews

namespace Elaborator

variable {E : Elaborator} {X Y : Situation} {goals goals' : List Goal} {names : List Name}

/-! ## Steps that declare their new goals -/

lemma renews_of_refines {x : ElabM (List Goal)} (hx : ∀ n, x.Refines (.all n) n {} goals)
    (h : x.Ends X goals' Y) : X.Renews goals Y goals' := by
  have hμ : X.metas.OverSince (.all X.supply.next) {} := ⟨X.metas.over_all, .empty _⟩
  obtain ⟨new, hnew⟩ := hx _ X (Supply.over_all (Nat.le_refl _)) hμ goals' Y h
  obtain ⟨hs, -⟩ := hnew.conforms fun _ _ => trivial
  exact ⟨hs.start, ⟨_, hnew.fresh, hnew.left⟩, fun _ => hnew.opened⟩

lemma renews_intro (h : (E.intro names goals).Ends X goals' Y) : X.Renews goals Y goals' := by
  have hone {name : Option Name} {goals goals' : List Goal} {X Y : Situation}
      (h : (E.introOne name goals).Ends X goals' Y) : X.Renews goals Y goals' :=
    renews_of_refines (fun n => refines_introOne (covers_all n E) (fun _ _ => trivial) name
      fun g _ => g.over_all) h
  unfold intro at h
  split at h
  · exact hone h
  · exact of_ends_foldlM (J := fun goals' Y => X.Renews goals Y goals')
      (fun _ _ _ _ _ _ h hX => hX.trans (hone h)) h (.refl X goals)

lemma renews_rfl (h : (E.rfl goals).Ends X goals' Y) : X.Renews goals Y goals' :=
  renews_of_refines (fun n => refines_rfl (covers_all n E) (fun _ _ => trivial) fun g _ => g.over_all) h

end Elaborator

/-! ## Open holes -/

lemma Term.nodup_holes (m : Term) : (m.holes.map Prod.fst).Nodup := by
  have hfold (seen hs : List (Id × Bool)) (h : (seen.map Prod.fst).Nodup) :
      ((hs.foldl (fun seen h => if seen.any (·.1 == h.1) then seen else seen ++ [h]) seen).map Prod.fst).Nodup := by
    induction hs generalizing seen with
    | nil => exact h
    | cons p hs ih =>
      rw [foldl_cons]
      refine ih _ ?_
      split
      · exact h
      · rename_i hnew
        rw [map_append, nodup_append]
        refine ⟨h, nodup_singleton _, fun i hi j hj hij => hnew ?_⟩
        obtain ⟨q, hq, rfl⟩ := mem_map.mp hi
        obtain rfl := mem_singleton.mp hj
        exact any_eq_true.mpr ⟨q, hq, by simpa using hij⟩
  exact hfold [] _ nodup_nil

lemma Metas.id_of_goalOf? {μ : Metas} {s : Supply} {h : Id} (hg : μ.goalOf? s h = some g) : g.id = h := by
  obtain ⟨g', hg', rfl⟩ := map_eq_some_iff.mp hg
  have hid : g'.id = h := Supply.id_of_goal? hg'
  exact hid

lemma Metas.nodup_openGoals (μ : Metas) (s : Supply) (m : Term) : ((μ.openGoals s m).map Goal.id).Nodup := by
  refine (Term.nodup_holes (μ.instantiate m)).sublist ?_
  unfold openGoals
  induction (μ.instantiate m).holes with
  | nil => exact nil_sublist _
  | cons p hs ih =>
    rw [filterMap_cons]
    split
    · exact ih.cons _
    · rename_i g hg
      have hid : g.id = p.1 := by
        dsimp only at hg
        split at hg
        · exact id_of_goalOf? hg
        · exact absurd hg (by simp)
      rw [map_cons, hid]
      exact ih.cons_cons _

/-- The goals that have been declared have numbers that have been handed out. -/
def Supply.Numbered (s : Supply) : Prop :=
  ∀ g ∈ s.goals, g.id.number < s.next

lemma Supply.Numbered.openGoals {s : Supply} (hs : s.Numbered) {μ : Metas} {m : Term} :
    ∀ g ∈ μ.openGoals s m, g.id.number < s.next := by
  intro g hg
  obtain ⟨-, -, hgoal⟩ := of_mem_openGoals hg
  obtain ⟨g', hg', hid⟩ := map_eq_some_iff.mp hgoal
  have hlt := hs g' (mem_of_find?_eq_some hg')
  rwa [Supply.id_of_goal? hg'] at hlt

/-! ## Steps that repeat goals -/

/-- All goals of a proof, in a situation. -/
structure Stage where
  goals : List Goal
  situation : Situation

/-- The tactic is one of the given ones or a part of one, or simplification takes it as a step. -/
inductive Tactic.Involved (ts : List Tactic) : Tactic → Prop
  | within {t : Tactic} : t.Within ts → Involved ts t
  | rewriting {es : List Expr} {e : Expr} : Within ts (.simp es) → e ∈ es → Involved ts (.rw e false none)
  | closing {es : List Expr} : Within ts (.simp es) → Involved ts .rfl

namespace Elaborator

variable {E : Elaborator} {R : Recursion} {ts : List Tactic} {S₀ S S' : Stage} {X Y Z : Situation}
  {goals goals' others : List Goal} {z : Id}
variable {fuel : Nat} {t : Tactic}

/-- A tactic runs on some goals, or is tried and given up, goals are reordered or instantiated, or a solved goal is
dropped. -/
inductive Move (E : Elaborator) (ts : List Tactic) : Stage → Stage → Prop
  | run {fuel : Nat} {t : Tactic} {goals goals' others : List Goal} {X Y : Situation} : t.Involved ts →
      (E.run fuel t goals).Ends X goals' Y → Move E ts ⟨goals ++ others, X⟩ ⟨goals' ++ others, Y⟩
  | giveUp {fuel : Nat} {t : Tactic} {goals goals' others : List Goal} {X Y : Situation} : t.Involved ts →
      (E.run fuel t goals).Ends X goals' Y → Move E ts ⟨goals ++ others, X⟩ ⟨goals ++ others, ⟨Y.supply, X.metas⟩⟩
  | perm {goals goals' : List Goal} {X : Situation} : goals.Perm goals' → Move E ts ⟨goals, X⟩ ⟨goals', X⟩
  | solved {g : Goal} {goals : List Goal} {X : Situation} : X.metas.isAssigned g.id = true →
      Move E ts ⟨g :: goals, X⟩ ⟨goals, X⟩
  | instantiate {g g' : Goal} {goals : List Goal} {X : Situation} : (instantiateGoal g).Ends X g' X →
      Move E ts ⟨g :: goals, X⟩ ⟨g' :: goals, X⟩

/-- A proof leads from one stage to another. -/
def Moves (E : Elaborator) (ts : List Tactic) : Stage → Stage → Prop :=
  Relation.ReflTransGen (E.Move ts)

/-- Run while other goals wait, the tactic makes the hole that of two goals. It has found the hole open where it looks
for new goals, although it was that of a goal already: of one that waits, or of the changed goal if it rewrites. -/
structure Repeats (E : Elaborator) (fuel : Nat) (t : Tactic) (goals others : List Goal) (X : Situation)
    (goals' : List Goal) (Y : Situation) (z : Id) : Prop where
  ends : (E.run (fuel + 1) t goals).Ends X goals' Y
  once : ((goals ++ others).map Goal.id).count z ≤ 1
  twice : 1 < ((goals' ++ others).map Goal.id).count z
  found : ∃ c, E.LooksIn ⟨E.visit fuel, E.run fuel⟩ goals X t c ∧ ∃ g ∈ Y.metas.openGoals Y.supply c, g.id = z
  waiting : (∃ g ∈ goals.tail ++ others, g.id = z) ∨
    (∃ e reverse occurrence, t = .rw e reverse occurrence) ∧ ∃ g ∈ goals'.head?, g.id = z

/-- One of the tactics on the way has made the hole that of two goals. -/
def Repeated (E : Elaborator) (ts : List Tactic) (S₀ S : Stage) (z : Id) : Prop :=
  ∃ fuel t goals others X goals' Y, t.Involved ts ∧ E.Moves ts S₀ ⟨goals ++ others, X⟩ ∧
    E.Repeats fuel t goals others X goals' Y z ∧ E.Moves ts ⟨goals' ++ others, Y⟩ S

lemma Repeated.move (h : E.Repeated ts S₀ S z) (hmove : E.Move ts S S') : E.Repeated ts S₀ S' z := by
  obtain ⟨fuel, t, goals, others, X, goals', Y, ht, hX, hrepeats, hY⟩ := h
  exact ⟨fuel, t, goals, others, X, goals', Y, ht, hX, hrepeats, hY.tail hmove⟩

lemma Repeated.elaborates (h : E.Repeated ts S₀ S z) : ∃ t : Tactic, t.Within ts ∧ t.Elaborates := by
  obtain ⟨fuel, t, goals, others, X, goals', Y, ht, -, hrepeats, -⟩ := h
  obtain ⟨c, hlooks, -⟩ := hrepeats.found
  cases ht with
  | within ht => exact ⟨t, ht, by cases hlooks <;> trivial⟩
  | rewriting hes _ => exact ⟨_, hes, trivial⟩
  | closing _ => exact nomatch hlooks

/-- The numbers of the goals have been handed out, and the hole is that of one of them at most, or has been repeated. -/
structure Listed (E : Elaborator) (ts : List Tactic) (S₀ : Stage) (z : Id) (goals : List Goal)
    (X : Situation) : Prop where
  reached : E.Moves ts S₀ ⟨goals, X⟩
  supply : X.supply.Numbered
  numbers : ∀ g ∈ goals, g.id.number < X.supply.next
  once : (goals.map Goal.id).count z ≤ 1 ∨ E.Repeated ts S₀ ⟨goals, X⟩ z

lemma Listed.move (h : E.Listed ts S₀ z goals X) (hmove : E.Move ts ⟨goals, X⟩ ⟨goals', Y⟩)
    (hsupply : Y.supply.Numbered) (hnumbers : ∀ g ∈ goals', g.id.number < Y.supply.next)
    (honce : (goals.map Goal.id).count z ≤ 1 → (goals'.map Goal.id).count z ≤ 1 ∨
      E.Repeated ts S₀ ⟨goals', Y⟩ z) : E.Listed ts S₀ z goals' Y where
  reached := h.reached.tail hmove
  supply := hsupply
  numbers := hnumbers
  once := h.once.elim honce fun hrepeated => .inr (hrepeated.move hmove)

lemma Listed.subperm (h : E.Listed ts S₀ z goals X) (hmove : E.Move ts ⟨goals, X⟩ ⟨goals', X⟩)
    (hids : (goals'.map Goal.id).Subperm (goals.map Goal.id)) : E.Listed ts S₀ z goals' X := by
  refine h.move hmove h.supply (fun g hg => ?_) fun honce => .inl ((hids.count_le z).trans honce)
  obtain ⟨g', hg', hid⟩ := mem_map.mp (hids.subset (mem_map_of_mem hg))
  exact hid ▸ h.numbers g' hg'

lemma regroups_listed : Regroups (E.Listed ts S₀ z) where
  perm h hperm := h.subperm (.perm hperm) (hperm.symm.map Goal.id).subperm
  solved h hsolved := h.subperm (.solved hsolved) (sublist_cons_self _ _).subperm
  instantiate h hg := h.subperm (.instantiate hg) (by rw [map_cons, map_cons, id_of_instantiateGoal hg])

lemma numbered_of_run (h : (E.run fuel t goals).Ends X goals' Y) (hX : X.supply.Numbered) : Y.supply.Numbered := by
  have hE : (all X.supply.next False).Covers E := covers_all _ E
  have hkeeps : ElabM.Keeps ((all X.supply.next False).invariant {}) (E.run fuel t goals) _ :=
    (recursion_over hE fuel).run t.over_all fun g _ => g.over_all
  have hs : X.supply.Over (.all X.supply.next False) := ⟨Nat.le_refl _, fun g _ _ => g.over_all.toStated, .inr hX⟩
  obtain ⟨hs', -⟩ := hkeeps.of_ends hs ⟨X.metas.over_all, .empty _⟩ h
  exact hs'.numbers.resolve_left id

/-- A run that is given up uses up numbers, and changes nothing else. -/
lemma Listed.giveUp (ht : t.Involved ts) (h : E.Listed ts S₀ z (goals ++ others) X)
    (hrun : (E.run fuel t goals).Ends X goals' Y) : E.Listed ts S₀ z (goals ++ others) ⟨Y.supply, X.metas⟩ := by
  have hsupply : Y.supply.Numbered := numbered_of_run hrun h.supply
  refine h.move (.giveUp ht hrun) hsupply (fun g hg => ?_) .inl
  exact (h.numbers g hg).trans_le (grows_of_run hrun).1

/-- A run whose new goals are declared by it repeats no goal. -/
lemma Listed.of_renews (ht : t.Involved ts) (h : E.Listed ts S₀ z (goals ++ others) X)
    (hrun : (E.run fuel t goals).Ends X goals' Y) (hrenews : X.Renews goals Y goals') :
    E.Listed ts S₀ z (goals' ++ others) Y := by
  obtain ⟨new, hnew, hids⟩ := hrenews.ids
  have hall : ((goals' ++ others).map Goal.id).Subperm (new ++ (goals ++ others).map Goal.id) := by
    simpa using hids.append (List.Perm.refl (others.map Goal.id)).subperm
  have hold {i : Id} (hi : i ∈ (goals ++ others).map Goal.id) : i.number < X.supply.next := by
    obtain ⟨g, hg, rfl⟩ := mem_map.mp hi
    exact h.numbers g hg
  refine h.move (.run ht hrun) (numbered_of_run hrun h.supply) (fun g hg => ?_) fun honce => .inl ?_
  · rcases mem_append.mp (hall.subset (mem_map_of_mem hg)) with hmem | hmem
    · exact (hnew.number _ hmem).2
    · exact (hold hmem).trans_le hrenews.next
  · have hcount := hall.count_le z
    rw [count_append] at hcount
    by_cases hz : z ∈ new
    · -- a new hole was that of no goal before
      have hnone : ((goals ++ others).map Goal.id).count z = 0 := count_eq_zero.mpr fun hmem =>
        absurd (hold hmem) (Nat.not_lt.mpr (hnew.number z hz).1)
      have hone := nodup_iff_count_le_one.mp hnew.nodup z
      omega
    · rw [count_eq_zero.mpr hz] at hcount
      omega

section Closes

variable {fuel : Nat} {t : Tactic} {c : Term} {before : List Goal}

lemma Closes.sublist (h : E.Closes R t goals X goals' Y c before) : ∃ g rest found, goals = g :: rest ∧
    found.Sublist (Y.metas.openGoals Y.supply c) ∧ goals'.Sublist (before ++ (found ++ rest)) := by
  obtain ⟨g, rest, hgoals, -, rfl⟩ := h.left
  exact ⟨g, rest, _, hgoals, filter_sublist, filter_sublist⟩

lemma open_of_prune (h : (prune goals).Ends X goals' Y) : ∀ g ∈ goals', Y.metas.isAssigned g.id = false := by
  obtain ⟨rfl, rfl⟩ := ends_prune.mp h
  exact fun g hg => by simpa using (mem_filter.mp hg).2

lemma Closes.opened (h : E.Closes R t goals X goals' Y c before) : ∀ g ∈ goals', Y.metas.isAssigned g.id = false := by
  obtain ⟨g, rest, -, -, rfl⟩ := h.left
  exact fun g hg => by simpa using (mem_filter.mp hg).2

/-- If a hole becomes that of two goals, it is found in the term, and is that of a goal that waited or of the changed
one. -/
lemma Closes.found_of_repeated (h : E.Closes R t goals X goals' Y c before)
    (hnumbers : ∀ g ∈ goals ++ others, g.id.number < X.supply.next)
    (hnew : Id.Between X.supply.next Y.supply.next (before.map Goal.id))
    (honce : ((goals ++ others).map Goal.id).count z ≤ 1) (htwice : 1 < ((goals' ++ others).map Goal.id).count z) :
    (∃ g ∈ Y.metas.openGoals Y.supply c, g.id = z) ∧
      ((∃ g ∈ goals.tail ++ others, g.id = z) ∨ ∃ g ∈ before, g.id = z) := by
  obtain ⟨g, rest, found, rfl, hfound, hgoals'⟩ := h.sublist
  have hle := ((hgoals'.append_right others).map Goal.id).count_le z
  have hwait := ((sublist_cons_self g (rest ++ others)).map Goal.id).count_le z
  have hopen := nodup_iff_count_le_one.mp ((nodup_openGoals ..).sublist (hfound.map Goal.id)) z
  have hchanged := nodup_iff_count_le_one.mp hnew.nodup z
  have hwaits (hz : 0 < ((rest ++ others).map Goal.id).count z) : ∃ g' ∈ rest ++ others, g'.id = z :=
    mem_map.mp (count_pos_iff.mp hz)
  have hbefore (hz : 0 < (before.map Goal.id).count z) : ∃ g' ∈ before, g'.id = z :=
    mem_map.mp (count_pos_iff.mp hz)
  simp only [cons_append, map_append, count_append] at hle hwait honce htwice hwaits
  constructor
  · by_contra hnone
    have hz : (found.map Goal.id).count z = 0 := count_eq_zero.mpr fun hmem =>
      hnone ((mem_map.mp hmem).imp fun g' hg' => ⟨hfound.mem hg'.1, hg'.2⟩)
    -- the number of the changed goal is new
    obtain ⟨g₁, hg₁, rfl⟩ := hbefore (by omega)
    obtain ⟨g₂, hg₂, hid⟩ := hwaits (by omega)
    have hlt := hnumbers g₂ (mem_cons_of_mem g hg₂)
    have hge := (hnew.number _ (mem_map_of_mem hg₁)).1
    rw [hid] at hlt
    omega
  · by_cases hz : 0 < (before.map Goal.id).count z
    · exact .inr (hbefore hz)
    · exact .inl (hwaits (by omega))

/-- A run that looks for new goals in a term repeats a goal only by finding its hole there. -/
lemma Listed.of_closes (ht : t.Involved ts) (h : E.Listed ts S₀ z (goals ++ others) X)
    (hrun : (E.run (fuel + 1) t goals).Ends X goals' Y)
    (hcloses : E.Closes ⟨E.visit fuel, E.run fuel⟩ t goals X goals' Y c before)
    (hnew : Id.Between X.supply.next Y.supply.next (before.map Goal.id))
    (hbefore : ∀ g ∈ before, (∃ e reverse occurrence, t = .rw e reverse occurrence) ∧ before = [g]) :
    E.Listed ts S₀ z (goals' ++ others) Y := by
  have hsupply := numbered_of_run hrun h.supply
  have hnext := (grows_of_run hrun).1
  refine h.move (.run ht hrun) hsupply (fun g' hg' => ?_) fun honce => ?_
  · obtain ⟨g, rest, found, rfl, hfound, hgoals'⟩ := hcloses.sublist
    have hg' := (hgoals'.append_right others).mem hg'
    simp only [mem_append] at hg'
    rcases hg' with (hg' | hg' | hg') | hg'
    · exact (hnew.number _ (mem_map_of_mem hg')).2
    · exact hsupply.openGoals g' (hfound.mem hg')
    · exact (h.numbers g' (by simp [hg'])).trans_le hnext
    · exact (h.numbers g' (by simp [hg'])).trans_le hnext
  · by_cases htwice : ((goals' ++ others).map Goal.id).count z ≤ 1
    · exact .inl htwice
    have htwice := Nat.lt_of_not_le htwice
    obtain ⟨⟨g, hg, rfl⟩, hwaiting⟩ := hcloses.found_of_repeated h.numbers hnew honce htwice
    refine .inr ⟨fuel, t, goals, others, X, goals', Y, ht, h.reached, ?_, .refl⟩
    refine ⟨hrun, honce, htwice, ⟨c, hcloses.looks, g, hg, Eq.refl _⟩, hwaiting.imp_right ?_⟩
    rintro ⟨g', hg', hid⟩
    obtain ⟨hrw, rfl⟩ := hbefore g' hg'
    refine ⟨hrw, g', ?_, hid⟩
    -- the changed goal is not solved, since its hole has been found open
    obtain ⟨_, _, -, -, rfl⟩ := hcloses.left
    have hopen := (of_mem_openGoals hg).2.1
    rw [← hid] at hopen
    simp [hopen]

end Closes

/-! ## Runs of tactics -/

/-- A basic tactic declares its new goals, or looks for them in a term, after the changed goal if it rewrites, or
simplifies. -/
lemma of_ends_run (ht : t.Basic) (h : (E.run (fuel + 1) t goals).Ends X goals' Y) : X.Renews goals Y goals' ∨
    (∃ c before, E.Closes ⟨E.visit fuel, E.run fuel⟩ t goals X goals' Y c before ∧
      Id.Between X.supply.next Y.supply.next (before.map Goal.id) ∧
      ∀ g ∈ before, (∃ e reverse occurrence, t = .rw e reverse occurrence) ∧ before = [g]) ∨
    ∃ es, t = .simp es ∧ (E.simp ⟨E.visit fuel, E.run fuel⟩ es goals).Ends X goals' Y := by
  have hE (n : Nat) : (all n).Covers E := covers_all n E
  have hhole (n : Nat) (h : Id) (_ : n ≤ h.number) : (all n).hole h := trivial
  have hgoals (n : Nat) (g : Goal) (_ : g ∈ goals) : g.Over (.all n) := g.over_all
  cases t with
  | intro names => exact .inl (renews_intro h)
  | cases x names | induction x names =>
    exact .inl (renews_of_refines (fun n => refines_eliminate (hE n) (hhole n) _ x names (hgoals n)) h)
  | split => exact .inl (renews_of_refines (fun n => refines_split (hE n) (hhole n) (hgoals n)) h)
  | assumption => exact .inl (renews_of_refines (fun n => refines_assumption (hE n) (hhole n) (hgoals n)) h)
  | rfl => exact .inl (renews_rfl h)
  | decide => exact .inl (renews_of_refines (fun n => refines_decide (hE n) (hhole n) (hgoals n)) h)
  | deferred => exact .inl (renews_of_refines (fun n => refines_defer trivial (hhole n) (hgoals n)) h)
  | exact e =>
    obtain ⟨c, hcloses⟩ := closes_of_exact h
    exact .inr (.inl ⟨c, [], hcloses, .nil _ _, forall_mem_nil _⟩)
  | apply e =>
    obtain ⟨c, hcloses⟩ := closes_of_apply h
    exact .inr (.inl ⟨c, [], hcloses, .nil _ _, forall_mem_nil _⟩)
  | rw e reverse occurrence =>
    obtain ⟨c, g', hcloses, hnumber⟩ := closes_of_rw (fun n => recursion_over (covers_all n E) fuel) h
    refine .inr (.inl ⟨c, [g'], hcloses, ⟨nodup_singleton _, forall_mem_singleton.mpr hnumber⟩, ?_⟩)
    exact forall_mem_singleton.mpr ⟨⟨e, reverse, occurrence, Eq.refl _⟩, Eq.refl _⟩
  | simp es => exact .inr (.inr ⟨es, Eq.refl _, h⟩)
  | seq _ | loop _ | focus _ | all _ | orElse _ _ => exact ht.elim

lemma listed_step (ht : t.Involved ts) (hbasic : t.Basic) (hsimp : ∀ es, t ≠ .simp es) :
    Follows (E.Listed ts S₀ z) (E.run (fuel + 1) t) := by
  intro goals others goals' X Y h hlisted
  rcases of_ends_run hbasic h with hrenews | ⟨c, before, hcloses, hnew, hbefore⟩ | ⟨es, hes, -⟩
  · exact hlisted.of_renews ht h hrenews
  · exact hlisted.of_closes ht h hcloses hnew hbefore
  · exact absurd hes (hsimp es)

lemma listed_simp {es : List Expr} (hes : Tactic.Within ts (.simp es)) :
    Follows (E.Listed ts S₀ z) (E.run (fuel + 1) (.simp es)) := by
  intro goals others goals' X Y h hlisted
  have hK : E.SimpInvariant ⟨E.visit fuel, E.run fuel⟩ es fun goals X => E.Listed ts S₀ z (goals ++ others) X := by
    refine ⟨fun he hrw hgoals => ?_, fun he hrw hgoals => ?_, fun hrfl hgoals => ?_⟩
    · exact listed_step (.rewriting hes he) trivial (by simp) _ others _ _ _ hrw hgoals
    · have hrun : (E.run (fuel + 1) (.rw _ false none) _).Ends _ _ _ := hrw
      exact hgoals.giveUp (.rewriting hes he) hrun
    · have hrun : (E.run (fuel + 1) .rfl _).Ends _ _ _ := hrfl
      exact listed_step (.closing hes) trivial (by simp) _ others _ _ _ hrun hgoals
  exact hK.of_simp h hlisted

lemma listed_run (fuel : Nat) (ht : t.Within ts) : Follows (E.Listed ts S₀ z) (E.run fuel t) := by
  refine follows_run regroups_listed (fun fuel t ht hbasic => ?_) fuel ht
  by_cases hsimp : ∃ es, t = .simp es
  · obtain ⟨es, rfl⟩ := hsimp
    exact listed_simp ht
  · exact listed_step (.within ht) hbasic fun es hes => hsimp ⟨es, hes⟩

lemma open_of_run (h : (E.run fuel t goals).Ends X goals' Y) (hopen : ∀ g ∈ goals, X.metas.isAssigned g.id = false) :
    ∀ g ∈ goals', Y.metas.isAssigned g.id = false := by
  induction fuel generalizing t goals goals' X Y with
  | zero => exact absurd h not_ends_exhausted
  | succ fuel ih =>
    by_cases hbasic : t.Basic
    · rcases of_ends_run hbasic h with hrenews | ⟨c, before, hcloses, -⟩ | ⟨es, rfl, h⟩
      · exact hrenews.opened hopen
      · exact hcloses.opened
      · have hK : E.SimpInvariant ⟨E.visit fuel, E.run fuel⟩ es fun goals X =>
            ∀ g ∈ goals, X.metas.isAssigned g.id = false := by
          refine ⟨fun _ hrw _ => ?_, fun _ _ hopen => hopen, fun hrfl hopen => (renews_rfl hrfl).opened hopen⟩
          obtain ⟨c, g', hcloses, -⟩ := closes_of_rw (fun n => recursion_over (covers_all n E) fuel) hrw
          exact hcloses.opened
        exact hK.of_simp h hopen
    cases t with
    | seq us =>
      exact of_ends_foldlM (J := fun goals X => ∀ g ∈ goals, X.metas.isAssigned g.id = false)
        (fun _ _ _ _ _ _ h => ih h) h hopen
    | loop t =>
      obtain ⟨r, Z, hattempt, h⟩ := h.bind
      rcases of_ends_recover hattempt with ⟨goals₁, rfl, hstep⟩ | ⟨rfl, rfl⟩
      · dsimp only at h
        split at h
        · obtain ⟨rfl, rfl⟩ := h.pure
          exact ih hstep hopen
        · exact ih h (ih hstep hopen)
      · obtain ⟨rfl, rfl⟩ := h.pure
        exact hopen
    | focus t =>
      obtain ⟨⟨g, rest⟩, X₁, hmain, h⟩ := h.bind
      obtain ⟨new, Z, hnew, h⟩ := h.bind
      exact open_of_prune h
    | all t =>
      obtain ⟨goals₁, Z, hall, h⟩ := h.bind
      exact open_of_prune h
    | orElse t u =>
      obtain ⟨r, Z, hattempt, h⟩ := h.bind
      rcases of_ends_recover hattempt with ⟨goals₁, rfl, hstep⟩ | ⟨rfl, rfl⟩
      · obtain ⟨rfl, rfl⟩ := h.pure
        exact ih hstep hopen
      · exact ih h hopen
    | _ => exact absurd trivial hbasic

/-! ## Proofs in progress -/

variable {Γ : Context} {target : Term} {s₀ s : Supply} {p : ProofState}

/-- The stage at which a proof begins. -/
def firstStage (Γ : Context) (target : Term) (s₀ : Supply) : Stage :=
  ⟨[(s₀.declare Γ target).1], begun Γ target s₀⟩

lemma listed_of_reaches (hs₀ : s₀.Numbered) (h : E.Reaches ts Γ target s₀ p s) (z : Id) :
    (∀ g ∈ p.goals, p.metas.isAssigned g.id = false) ∧ E.Listed ts (firstStage Γ target s₀) z p.goals ⟨s, p.metas⟩ := by
  induction h with
  | start h =>
    obtain ⟨g, s₁, hg, hp⟩ := h.bind
    obtain ⟨rfl, rfl⟩ := hp.pure
    obtain ⟨rfl, rfl⟩ := Prod.mk.inj (FreshM.ends_modifyGet.mp hg)
    refine ⟨forall_mem_singleton.mpr (Eq.refl _), .refl, ?_, ?_, .inl count_le_length⟩
    · exact forall_mem_cons.mpr ⟨Nat.lt_succ_self _, fun g hg => Nat.lt_succ_of_lt (hs₀ g hg)⟩
    · exact forall_mem_singleton.mpr (Nat.lt_succ_self _)
  | @step p p' s s' t _ ht h ih =>
    obtain ⟨⟨goals, μ⟩, s₁, hrun, hp⟩ := h.bind
    obtain ⟨rfl, rfl⟩ := hp.pure
    have hrun : (E.run E.fuel t p.goals).Ends ⟨s, p.metas⟩ goals ⟨s₁, μ⟩ := hrun
    have hstep := listed_run E.fuel (.mem ht) p.goals [] goals ⟨s, p.metas⟩ ⟨s₁, μ⟩ hrun
      (by rw [append_nil]; exact ih.2)
    rw [append_nil] at hstep
    exact ⟨open_of_run hrun ih.1, hstep⟩

/-- No goal of a proof is solved, and the holes of the goals are distinct, except those that a tactic has repeated.
Tactics that elaborate no expression repeat none. -/
theorem goals_open_and_distinct_unless_repeated (hs₀ : s₀.Numbered) (h : E.Reaches ts Γ target s₀ p s) :
    (∀ g ∈ p.goals, p.metas.isAssigned g.id = false) ∧
    (∀ z, 1 < (p.goals.map Goal.id).count z →
      E.Repeated ts (firstStage Γ target s₀) ⟨p.goals, ⟨s, p.metas⟩⟩ z) ∧
    ((∀ t : Tactic, t.Within ts → ¬ t.Elaborates) → (p.goals.map Goal.id).Nodup) := by
  have hrepeated (z : Id) (hz : 1 < (p.goals.map Goal.id).count z) :=
    (listed_of_reaches hs₀ h z).2.once.resolve_left (Nat.not_le.mpr hz)
  refine ⟨(listed_of_reaches hs₀ h default).1, hrepeated, fun hplain => List.nodup_iff_count_le_one.mpr fun z => ?_⟩
  by_contra hz
  obtain ⟨t, ht, helab⟩ := (hrepeated z (Nat.lt_of_not_le hz)).elaborates
  exact hplain t ht helab

/-- A proof of `R` by `mk : (n : N) → P n → R`, where the goal `P n` is solved by `f : (n : N) → P n` on a hole. The
hole is `n`, which is a goal already. -/
theorem shared_hole_repeated :
    let E : Elaborator := { env := {}, fuel := 12 }
    let N : Local := .new 0 ⟨"N"⟩ (.sort (.succ .zero))
    let P : Local := .new 1 ⟨"P"⟩ (.pi ⟨"n"⟩ false N.term (.sort .zero))
    let R : Local := .new 2 ⟨"R"⟩ (.sort .zero)
    let mk : Local := .new 3 ⟨"mk"⟩ (.pi ⟨"n"⟩ false N.term (.pi ⟨"h"⟩ false (P.term.app (.var 0)) R.term))
    let f : Local := .new 4 ⟨"f"⟩ (.pi ⟨"n"⟩ false N.term (P.term.app (.var 0)))
    let Γ : Context := ⟨[N, P, R, mk, f]⟩
    let attempt : Tactic := .orElse (.exact (.app (.ident ⟨"f"⟩) .hole)) (.seq [])
    let script : Tactic := .seq [.apply (.ident ⟨"mk"⟩), .all attempt]
    let g : Goal := ⟨⟨6, none⟩, Γ, N.term⟩
    ∃ p s, E.Reaches [script] Γ R.term ⟨5, []⟩ p s ∧ p.goals = [g, g] ∧ p.metas.isAssigned g.id = false ∧
      E.Repeated [script] (firstStage Γ R.term ⟨5, []⟩) ⟨p.goals, ⟨s, p.metas⟩⟩ g.id := by
  intro E N P R mk f Γ attempt script g
  let root : Goal := ⟨⟨5, none⟩, Γ, R.term⟩
  have hstart : (startProof Γ R.term).Ends ⟨5, []⟩ (.start root {}) ⟨6, [root]⟩ := by
    unfold FreshM.Ends Fueled.Yields; cbv
  obtain ⟨p, s, hrun, hgoals⟩ : ∃ p s, (E.runTactic script (.start root {})).Ends ⟨6, [root]⟩ p s ∧ p.goals = [g, g] := by
    refine FreshM.exists_ends_of_run ?_
    decide +kernel
  have hreaches : E.Reaches [script] Γ R.term ⟨5, []⟩ p s := .step (.start hstart) List.mem_cons_self hrun
  have hs₀ : Supply.Numbered ⟨5, []⟩ := List.forall_mem_nil _
  obtain ⟨hopen, hrepeated, -⟩ := goals_open_and_distinct_unless_repeated hs₀ hreaches
  refine ⟨p, s, hreaches, hgoals, hopen g (by simp [hgoals]), hrepeated g.id ?_⟩
  simp [hgoals]

end Elaborator

end ProofAssistant
