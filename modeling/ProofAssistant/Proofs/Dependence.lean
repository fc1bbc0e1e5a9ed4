import ProofAssistant.Proofs.CaseHypotheses

/-!
# Hypotheses that depend on each other

`Context.DependsOn Γ x y` says that the hypothesis `y` mentions `x`, or another hypothesis that depends on `x`. Where a
hypothesis mentions only earlier ones, `Elaborator.dependents` finds all that depend on `x`
(`Elaborator.mem_dependents_iff`), and what does not can be moved before it.
-/

namespace ProofAssistant

open List Scope

variable {S : Scope} {x : Id}

namespace Local

/-- Some of the hypotheses are a telescope of their own, where the scope admits the others that they mention. -/
lemma AllIn.sublist {S' : Scope} (hS : Scope.Le { S with free := fun _ => False } S') {xs ys : List Local}
    (hxs : AllIn S xs) (hsub : ys.Sublist xs) (hnodup : xs.Nodup)
    (hfree : ∀ y ∈ ys, ∀ z, S.free z → y.type.containsFree z → S'.free z)
    (hother : ∀ y ∈ ys, ∀ z ∈ xs, z ∉ ys → y.type.containsFree z.id → S'.free z.id) : AllIn S' ys := by
  induction hsub generalizing S S' with
  | slnil => trivial
  | @cons ys xs x hsub ih =>
    obtain ⟨hx, hnodup⟩ := nodup_cons.mp hnodup
    have hS' : Scope.Le { S.push x.id with free := fun _ => False } S' :=
      ⟨fun _ hz => hz.elim, hS.level, hS.const, hS.ctor, hS.hole⟩
    refine ih hS' hxs.2 hnodup ?_ fun y hy z hz => hother y hy z (mem_cons_of_mem x hz)
    rintro y hy z (hz | rfl) hocc
    · exact hfree y hy z hz hocc
    · exact hother y hy x mem_cons_self (fun hmem => hx (hsub.subset hmem)) hocc
  | @cons_cons ys xs x hsub ih =>
    obtain ⟨hx, hnodup⟩ := nodup_cons.mp hnodup
    have htype : x.type.In { S with free := S'.free } 0 := hxs.1.of_forall_containsFree fun z hz =>
      hfree x mem_cons_self z (hxs.1.free_of_containsFree hz) hz
    have hle : Scope.Le { S with free := S'.free } S' := ⟨fun _ hz => hz, hS.level, hS.const, hS.ctor, hS.hole⟩
    have hS' : Scope.Le { S.push x.id with free := fun _ => False } (S'.push x.id) :=
      ⟨fun _ hz => hz.elim, hS.level, hS.const, hS.ctor, hS.hole⟩
    refine ⟨htype.widen hle, ih hS' hxs.2 hnodup ?_ fun y hy z hz hzy hocc => ?_⟩
    · rintro y hy z (hz | rfl) hocc
      · exact .inl (hfree y (mem_cons_of_mem x hy) z hz hocc)
      · exact .inr rfl
    · have hzx : z ∉ x :: ys := by
        intro hmem
        rcases mem_cons.mp hmem with rfl | hmem
        · exact hx hz
        · exact hzy hmem
      exact .inl (hother y (mem_cons_of_mem x hy) z (mem_cons_of_mem x hz) hzx hocc)

lemma AllIn.mem_after {before after : List Local} {x y : Local} (h : AllIn S (before ++ x :: after))
    (hnodup : ((before ++ x :: after).map Local.id).Nodup) (hS : ¬ S.free x.id) (hy : y ∈ before ++ x :: after)
    (hocc : y.type.containsFree x.id) : y ∈ after := by
  obtain ⟨hbefore, hx, -⟩ := allIn_append.mp h
  have hfresh : ¬ (S.pushAll before).free x.id := by
    rw [pushAll_free]
    rintro (hfree | hmem)
    · exact hS hfree
    · rw [map_append, nodup_append] at hnodup
      exact hnodup.2.2 x.id hmem x.id (by simp) rfl
  rcases mem_append.mp hy with hy | hy
  · -- the type is in the scope of the hypotheses before it, all of which are before `x`
    obtain ⟨older, newer, rfl⟩ := append_of_mem hy
    obtain ⟨-, htype, -⟩ := allIn_append.mp hbefore
    have hle : (S.pushAll older).Le (S.pushAll (older ++ y :: newer)) := by
      rw [pushAll_append]
      exact le_pushAll _ _
    exact absurd (hle.free _ (htype.free_of_containsFree hocc)) hfresh
  · rcases mem_cons.mp hy with rfl | hy
    · exact absurd (hx.free_of_containsFree hocc) hfresh
    · exact hy

end Local

/-! ## Dependence -/

/-- The hypothesis depends on `x`: it mentions `x`, or a hypothesis that depends on `x`. -/
inductive Context.DependsOn (Γ : Context) (x : Id) : Local → Prop
  | direct {y : Local} : y ∈ Γ.locals → y.type.containsFree x → DependsOn Γ x y
  | through {y z : Local} : y ∈ Γ.locals → y.type.containsFree z.id → DependsOn Γ x z → DependsOn Γ x y

namespace Elaborator

variable {y : Local}

lemma dependents_append (xs : List Id) (hs hs' : List Local) : dependents xs (hs ++ hs') =
    dependents xs hs ++ dependents (((dependents xs hs).map Local.id).reverse ++ xs) hs' := by
  induction hs generalizing xs with
  | nil => rfl
  | cons h hs ih =>
    rw [cons_append, dependents, dependents]
    split
    · simp [ih]
    · exact ih xs

lemma dependents_sublist (xs : List Id) (hs : List Local) : (dependents xs hs).Sublist hs := by
  induction hs generalizing xs with
  | nil => exact .slnil
  | cons h hs ih =>
    rw [dependents]
    split
    · exact (ih _).cons_cons h
    · exact (ih _).cons h

lemma mem_dependents_of_occurs {xs : List Id} {hs : List Local} (hy : y ∈ hs) (hx : x ∈ xs)
    (hocc : y.type.containsFree x) : y ∈ dependents xs hs := by
  induction hs generalizing xs with
  | nil => simp at hy
  | cons h hs ih =>
    rw [dependents]
    rcases mem_cons.mp hy with rfl | hy
    · rw [if_pos (any_eq_true.mpr ⟨x, hx, hocc⟩)]
      exact mem_cons_self
    · split
      · exact mem_cons_of_mem _ (ih hy (mem_cons_of_mem _ hx))
      · exact ih hy hx

lemma dependsOn_of_mem_dependents {Γ : Context} {xs : List Id}
    (hxs : ∀ i ∈ xs, i = x ∨ ∃ z : Local, z.id = i ∧ Γ.DependsOn x z) {hs : List Local} (hhs : ∀ y ∈ hs, y ∈ Γ.locals)
    (hy : y ∈ dependents xs hs) : Γ.DependsOn x y := by
  induction hs generalizing xs with
  | nil => simp [dependents] at hy
  | cons h hs ih =>
    obtain ⟨hh, hhs⟩ := forall_mem_cons.mp hhs
    rw [dependents] at hy
    split at hy
    · rename_i hany
      have hdep : Γ.DependsOn x h := by
        obtain ⟨i, hi, hocc⟩ := any_eq_true.mp hany
        rcases hxs i hi with rfl | ⟨z, rfl, hz⟩
        · exact .direct hh hocc
        · exact .through hh hocc hz
      rcases mem_cons.mp hy with rfl | hy
      · exact hdep
      · exact ih (forall_mem_cons.mpr ⟨.inr ⟨h, Eq.refl _, hdep⟩, hxs⟩) hhs hy
    · exact ih hxs hhs hy

/-- The dependents of a hypothesis are found by one pass over the hypotheses after it. -/
lemma mem_dependents_iff (hS : ∀ y, ¬ S.free y) {before after : List Local} {x : Local}
    (hin : Local.AllIn S (before ++ x :: after)) (hnodup : ((before ++ x :: after).map Local.id).Nodup) :
    y ∈ dependents [x.id] after ↔ Context.DependsOn ⟨before ++ x :: after⟩ x.id y := by
  constructor
  · refine dependsOn_of_mem_dependents (fun i hi => .inl (mem_singleton.mp hi)) fun z hz => ?_
    exact mem_append_right _ (mem_cons_of_mem x hz)
  · intro hdep
    induction hdep with
    | direct hy hocc =>
      exact mem_dependents_of_occurs (hin.mem_after hnodup (hS _) hy hocc) (mem_singleton_self _) hocc
    | @through y z hy hocc _ ih =>
      -- `z` was found before `y` is looked at
      obtain ⟨older, newer, rfl⟩ := append_of_mem ((dependents_sublist _ _).subset ih)
      have hsplit : before ++ x :: (older ++ z :: newer) = (before ++ x :: older) ++ z :: newer := by simp
      have hlast : y ∈ newer := by
        rw [hsplit] at hin hnodup
        exact hin.mem_after hnodup (hS _) (by rw [← hsplit]; exact hy) hocc
      have hz : z ∉ newer := by
        intro hz
        rw [hsplit, map_append] at hnodup
        exact (nodup_cons.mp (nodup_append.mp hnodup).2.1).1 (mem_map_of_mem hz)
      rw [show older ++ z :: newer = (older ++ [z]) ++ newer by simp] at ih ⊢
      rw [dependents_append] at ih ⊢
      have hfound : z ∈ dependents [x.id] (older ++ [z]) := by
        rcases mem_append.mp ih with hfound | hlater
        · exact hfound
        · exact absurd ((dependents_sublist _ _).subset hlater) hz
      refine mem_append_right _ (mem_dependents_of_occurs hlast ?_ hocc)
      exact mem_append_left _ (mem_reverse.mpr (mem_map_of_mem hfound))

end Elaborator

end ProofAssistant
