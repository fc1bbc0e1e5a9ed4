import Mathlib.Data.List.Nodup
import Mathlib.Data.List.Perm.Subperm
import Mathlib.Logic.Function.Iterate
import ProofAssistant.Context

/-!
# Names of hypotheses

A context that is built by adding one hypothesis after the other has no name twice, apart from the anonymous one: what
a new hypothesis hides is renamed, and the new name is free (`Context.push_names`). So names and identities find the
same hypotheses (`Context.names_exact`).
-/

namespace ProofAssistant

open List Nat

namespace Name

lemma inaccessible_iterate_length (i : Nat) (n : Name) : (inaccessible^[i] n).text.length = n.text.length + i := by
  induction i generalizing n with
  | zero => rfl
  | succ i ih =>
    rw [Function.iterate_succ_apply, ih, inaccessible, String.length_append]
    exact Nat.add_right_comm ..

lemma inaccessible_iterate_inj {i j : Nat} {n : Name} (h : inaccessible^[i] n = inaccessible^[j] n) : i = j := by
  have hlength := congrArg (·.text.length) h
  simpa [inaccessible_iterate_length] using hlength

/-- The search looks past taken names only, and gives up after `bound` of them. -/
lemma firstFree_spec (taken : List Name) (bound : Nat) (n : Name) :
    ∃ i ≤ bound, firstFree taken bound n = inaccessible^[i] n ∧ (∀ j < i, inaccessible^[j] n ∈ taken) ∧
      (inaccessible^[i] n ∈ taken → i = bound) := by
  induction bound generalizing n with
  | zero => exact ⟨0, Nat.le_refl 0, rfl, fun j hj => absurd hj (Nat.not_lt_zero j), fun _ => rfl⟩
  | succ bound ih =>
    by_cases hn : n ∈ taken
    · obtain ⟨i, hi, hfirst, hbefore, hlast⟩ := ih n.inaccessible
      refine ⟨i + 1, succ_le_succ hi, ?_, fun j hj => ?_, fun h => congrArg (· + 1) (hlast h)⟩
      · rw [firstFree, if_pos hn, hfirst, Function.iterate_succ_apply]
      · cases j with
        | zero => exact hn
        | succ j => exact hbefore j (lt_of_succ_lt_succ hj)
    · refine ⟨0, zero_le _, ?_, fun j hj => absurd hj (not_lt_zero j), fun h => absurd h hn⟩
      rw [firstFree, if_neg hn]
      rfl

/-- The names that are tried are distinct, so one of them is free before there are more than the taken ones. -/
lemma firstFree_free (taken : List Name) (n : Name) :
    ∃ i, firstFree taken taken.length n = inaccessible^[i] n ∧ (∀ j < i, inaccessible^[j] n ∈ taken) ∧
      inaccessible^[i] n ∉ taken := by
  obtain ⟨i, -, hfirst, hbefore, hlast⟩ := firstFree_spec taken taken.length n
  refine ⟨i, hfirst, hbefore, fun hmem => ?_⟩
  have hall : (List.range (i + 1)).map (inaccessible^[·] n) ⊆ taken := by
    intro a ha
    obtain ⟨j, hj, rfl⟩ := mem_map.mp ha
    rcases Nat.lt_or_eq_of_le (Nat.le_of_lt_succ (mem_range.mp hj)) with hj | rfl
    · exact hbefore j hj
    · exact hmem
  have hdistinct := nodup_range (n := i + 1) |>.map fun _ _ => inaccessible_iterate_inj (n := n)
  have hlength := (List.Nodup.subperm hdistinct hall).length_le
  rw [length_map, length_range, hlast hmem] at hlength
  exact not_succ_le_self _ hlength

lemma isAnonymous_iff {n : Name} : n.isAnonymous ↔ n = anonymous := by
  cases n
  simp [isAnonymous, anonymous]

end Name

namespace Context

variable {Γ : Context} {x : Local} {xs : List Local}

/-- Either no hypothesis has the old name, or the last one that has it gets the new name. -/
lemma renameLast_cases (old new : Name) (xs : List Local) : (∀ x ∈ xs, x.name ≠ old) ∧ renameLast old new xs = xs ∨
      ∃ before x after, xs = before ++ x :: after ∧ x.name = old ∧ (∀ y ∈ after, y.name ≠ old) ∧
        renameLast old new xs = before ++ { x with name := new } :: after := by
  induction xs with
  | nil => exact .inl ⟨by simp, rfl⟩
  | cons x xs ih =>
    obtain ⟨hnone, hrename⟩ | ⟨before, y, after, rfl, hy, hafter, hrename⟩ := ih
    · have hany : xs.any (·.name == old) = false := by simpa using hnone
      by_cases hx : x.name = old
      · refine .inr ⟨[], x, xs, rfl, hx, hnone, ?_⟩
        simp [renameLast, hany, hx]
      · refine .inl ⟨forall_mem_cons.mpr ⟨hx, hnone⟩, ?_⟩
        simp [renameLast, hany, hx]
    · refine .inr ⟨x :: before, y, after, rfl, hy, hafter, ?_⟩
      rw [renameLast, if_pos (by simp [hy]), hrename]
      rfl

/-- What adding a hypothesis does: no name changes if it is anonymous or hides none, otherwise that of the hypothesis
that it hides does. -/
lemma push_cases (Γ : Context) (x : Local) :
    (Γ.push x).locals = Γ.locals ++ [x] ∧ (x.name ≠ .anonymous → ∀ y ∈ Γ.locals, y.name ≠ x.name) ∨
      ∃ before y after fresh, Γ.locals = before ++ y :: after ∧ y.name = x.name ∧ (∀ z ∈ after, z.name ≠ x.name) ∧
        fresh ∉ Γ.names ∧ fresh ≠ x.name ∧ (Γ.push x).locals = before ++ { y with name := fresh } :: after ++ [x] := by
  unfold push
  split
  · rename_i hx
    exact .inl ⟨rfl, fun h => absurd (Name.isAnonymous_iff.mp hx) h⟩
  · obtain ⟨i, hfresh, -, hfree⟩ := Name.firstFree_free Γ.names x.name.inaccessible
    rw [← hfresh] at hfree
    obtain ⟨hnone, hrename⟩ | ⟨before, y, after, hlocals, hy, hafter, hrename⟩ :=
      renameLast_cases x.name (Name.firstFree Γ.names Γ.names.length x.name.inaccessible) Γ.locals
    · exact .inl ⟨congrArg (· ++ [x]) hrename, fun _ => hnone⟩
    · refine .inr ⟨before, y, after, _, hlocals, hy, hafter, hfree, fun heq => ?_, congrArg (· ++ [x]) hrename⟩
      -- the new name is longer than the old one
      rw [hfresh] at heq
      exact succ_ne_zero i (Name.inaccessible_iterate_inj heq)

/-- No name but the anonymous one is that of two hypotheses, and no identity is. -/
structure Distinct (Γ : Context) : Prop where
  names : Γ.locals.Pairwise fun y z => y.name = z.name → y.name = .anonymous
  ids : Γ.ids.Nodup

lemma Distinct.push (h : Γ.Distinct) (hx : x.id ∉ Γ.ids) : (Γ.push x).Distinct := by
  refine ⟨?_, by rw [ids_push, ← concat_eq_append]; exact h.ids.concat hx⟩
  have hnames := h.names
  obtain ⟨hlocals, hnone⟩ | ⟨before, y, after, fresh, hold, hy, hafter, hfree, hne, hlocals⟩ := push_cases Γ x
  · rw [hlocals, pairwise_append]
    refine ⟨hnames, pairwise_singleton .., fun z hz w hw heq => ?_⟩
    obtain rfl := mem_singleton.mp hw
    by_contra hz'
    exact hnone (heq ▸ hz') z hz heq
  · have hfresh : ∀ z ∈ before ++ y :: after, z.name ≠ fresh := fun z hz heq =>
      hfree (heq ▸ mem_map_of_mem (hold ▸ hz))
    rw [forall_mem_append, forall_mem_cons] at hfresh
    rw [hold, pairwise_append, pairwise_cons] at hnames
    obtain ⟨hbefore, ⟨-, hrest⟩, hacross⟩ := hnames
    rw [hlocals, pairwise_append, pairwise_append, pairwise_cons]
    refine ⟨⟨hbefore, ⟨fun z hz heq => absurd heq.symm (hfresh.2.2 z hz), hrest⟩, fun z hz w hw heq => ?_⟩,
      pairwise_singleton .., fun z hz w hw heq => ?_⟩
    · rcases mem_cons.mp hw with rfl | hw
      · exact absurd heq (hfresh.1 z hz)
      · exact hacross z hz w (mem_cons_of_mem y hw) heq
    · obtain rfl := mem_singleton.mp hw
      rcases mem_append.mp hz with hz | hz
      · exact hacross z hz y mem_cons_self (heq.trans hy.symm)
      · rcases mem_cons.mp hz with rfl | hz
        · exact absurd heq hne
        · exact absurd heq (hafter z hz)

lemma Distinct.pushAll (h : Γ.Distinct) (hxs : (Γ.ids ++ xs.map Local.id).Nodup) : (Γ.pushAll xs).Distinct := by
  induction xs generalizing Γ with
  | nil => exact h
  | cons x xs ih =>
    rw [map_cons, append_cons] at hxs
    have hx : x.id ∉ Γ.ids := by
      have hnodup := hxs.of_append_left
      rw [nodup_append] at hnodup
      exact fun hmem => hnodup.2.2 _ hmem _ (mem_singleton_self _) rfl
    exact ih (h.push hx) (by rwa [ids_push])

/-- The newest entry with the same key is the entry itself, if no two entries share that key. -/
lemma find?_reverse_of_mem {β : Type} [BEq β] [LawfulBEq β] {key : Local → β} (hx : x ∈ xs)
    (h : xs.Pairwise fun y z => key y = key z → key y ≠ key x) : xs.reverse.find? (key · == key x) = some x := by
  obtain ⟨before, after, rfl⟩ := append_of_mem hx
  have hafter : after.reverse.find? (key · == key x) = none := by
    rw [find?_eq_none]
    intro z hz heq
    have hz := (pairwise_cons.mp (pairwise_append.mp h).2.1).1 z (mem_reverse.mp hz)
    exact hz (eq_of_beq heq).symm rfl
  simp [hafter]

/-- A hypothesis that was added comes last, and of the older ones only the name of one may differ. -/
lemma push_keeps (Γ : Context) (x : Local) :
    ∃ ys, (Γ.push x).locals = ys ++ [x] ∧ ys.map Local.id = Γ.ids ∧
      ys.map Local.type = Γ.locals.map Local.type ∧ ∃ i, ∀ j : Nat, j ≠ i → ys[j]? = Γ.locals[j]? := by
  obtain ⟨hlocals, -⟩ | ⟨before, y, after, fresh, hold, -, -, -, -, hlocals⟩ := push_cases Γ x
  · exact ⟨_, hlocals, rfl, rfl, 0, fun _ _ => rfl⟩
  · refine ⟨_, hlocals, by simp [ids, hold], by simp [hold], before.length, fun j hj => ?_⟩
    rw [hold]
    rcases Nat.lt_or_gt_of_ne hj with hj | hj
    · rw [getElem?_append_left hj, getElem?_append_left hj]
    · obtain ⟨k, rfl⟩ := Nat.exists_eq_add_of_lt hj
      simp [getElem?_append_right, Nat.add_assoc]

/-- A context that is built by adding hypotheses finds every hypothesis by its identity and by its name, and loses at
most one name when a hypothesis is added. The search for a new name ends. -/
theorem names_exact (xs : List Local) (hids : (xs.map Local.id).Nodup) :
    let Γ := Context.pushAll {} xs
    (Γ.locals.Pairwise fun y z => y.name = z.name → y.name = .anonymous) ∧
    (∀ y ∈ Γ.locals, Γ.get? y.id = some y ∧ (y.name ≠ .anonymous → Γ.find? y.name = some y)) ∧
    ∀ x : Local,
      (∃ i, Name.firstFree Γ.names Γ.names.length x.name.inaccessible = Name.inaccessible^[i] x.name.inaccessible ∧
        (∀ j < i, Name.inaccessible^[j] x.name.inaccessible ∈ Γ.names) ∧
        Name.inaccessible^[i] x.name.inaccessible ∉ Γ.names) ∧
      (∃ ys, (Γ.push x).locals = ys ++ [x] ∧ ys.map Local.id = Γ.ids ∧
        ys.map Local.type = Γ.locals.map Local.type ∧ ∃ i, ∀ j : Nat, j ≠ i → ys[j]? = Γ.locals[j]?) ∧
      (x.name ≠ .anonymous → (Γ.push x).find? x.name = some x) := by
  intro Γ
  have hΓ : Γ.Distinct := Distinct.pushAll ⟨.nil, .nil⟩ hids
  refine ⟨hΓ.names, fun y hy => ⟨?_, fun hname => ?_⟩, fun x => ⟨Name.firstFree_free .., push_keeps Γ x, fun _ => ?_⟩⟩
  · exact find?_reverse_of_mem hy ((List.pairwise_map.mp hΓ.ids).imp fun hne heq => absurd heq hne)
  · exact find?_reverse_of_mem hy (hΓ.names.imp fun h heq hz => hname (hz.symm.trans (h heq)))
  · obtain ⟨ys, hlocals, -⟩ := push_keeps Γ x
    simp [find?, hlocals]

/-- One name is hidden three times, between names that look like hidden ones and the anonymous name. -/
theorem names_exact_hidden :
    let Γ := Context.pushAll {} [.new 0 ⟨"h"⟩ (.sort .zero), .new 1 ⟨"h✝"⟩ (.sort .zero), .new 2 ⟨"h"⟩ (.sort .zero),
      .new 3 ⟨"_"⟩ (.sort .zero), .new 4 ⟨"_"⟩ (.sort .zero), .new 5 ⟨"h"⟩ (.sort .zero)]
    Γ.names = [⟨"h✝✝"⟩, ⟨"h✝"⟩, ⟨"h✝✝✝"⟩, ⟨"_"⟩, ⟨"_"⟩, ⟨"h"⟩] ∧
      Γ.locals.Pairwise fun y z => y.name = z.name → y.name = .anonymous :=
  ⟨by decide, (names_exact _ (by decide)).1⟩

end Context

end ProofAssistant
