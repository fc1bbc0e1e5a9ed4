import ProofAssistant.Proofs.RecursorRule

/-!
# Computation with a function

`Env.Computes env f` is the least equivalence and congruence that contains β, η, ι and the definition of `f`. Unlike
`Env.Conv` it unfolds no other definition, and it does not identify levels, nor binders of different names.
-/

namespace ProofAssistant

namespace Env

open InductiveSpec Term List

/-- The terms are equal by computation, where of all definitions only that of `f` is unfolded. -/
inductive Computes (env : Env) (f : Name) : Term → Term → Prop
  | refl (m : Term) : Computes env f m m
  | symm {m m' : Term} : Computes env f m m' → Computes env f m' m
  | trans {m m' m'' : Term} : Computes env f m m' → Computes env f m' m'' → Computes env f m m''
  | contract {m m' : Term} : env.Contracts m m' → (∀ c ls, m = .const c ls → c = f) → Computes env f m m'
  | eta (x : Name) (t g : Term) : Computes env f (.lam x t (.app g.shift (.var 0))) g
  | app {g g' a a' : Term} : Computes env f g g' → Computes env f a a' → Computes env f (.app g a) (.app g' a')
  | lam {x : Name} {t t' b b' : Term} : Computes env f t t' → Computes env f b b' →
    Computes env f (.lam x t b) (.lam x t' b')
  | pi {x : Name} {i : Bool} {t t' b b' : Term} : Computes env f t t' → Computes env f b b' →
    Computes env f (.pi x i t b) (.pi x i t' b')

namespace Computes

variable {env : Env} {f : Name}
variable {m m' : Term} {as : List Term} {S : Scope} {xs : List Local}

lemma apply (h : env.Computes f m m') {as' : List Term} (has : List.Forall₂ (env.Computes f) as as') :
    env.Computes f (m.apply as) (m'.apply as') := by
  induction has generalizing m m' with
  | nil => exact h
  | cons ha _ ih => exact ih (h.app ha)

lemma apply_left (h : env.Computes f m m') (as : List Term) : env.Computes f (m.apply as) (m'.apply as) :=
  h.apply (forall₂_same.mpr fun a _ => .refl a)

lemma beta (x : Name) (t b a : Term) : env.Computes f (.app (.lam x t b) a) (b.instantiate a) :=
  .contract (.beta x t b a) fun _ _ h => nomatch h

lemma conv (h : env.Computes f m m') : env.Conv m m' := by
  induction h with
  | refl m => exact .refl m
  | symm _ ih => exact ih.symm
  | trans _ _ ih ih' => exact ih.trans ih'
  | contract h _ => exact .contract h
  | eta x t g => exact .eta x t g
  | app _ _ ihg iha => exact .app ihg iha
  | lam _ _ iht ihb => exact .lam iht ihb
  | pi _ _ iht ihb => exact .pi iht ihb

lemma replace (henv : env.Admits noFree) (h : env.Computes f m m') (s : Replacement) :
    env.Computes f (m.replace s) (m'.replace s) := by
  induction h generalizing s with
  | refl m => exact .refl _
  | symm _ ih => exact (ih s).symm
  | trans _ _ ih ih' => exact (ih s).trans (ih' s)
  | @contract m m' h hf =>
    refine .contract (h.replace henv s) fun c ls hm => ?_
    cases m with
    | const c' ls' => exact hf c ls hm
    | app g a => exact nomatch hm
    | _ => cases h
  | eta x t g =>
    simp only [Term.replace, Term.replace_shift]
    exact .eta x _ _
  | app _ _ ihg iha => exact .app (ihg s) (iha s)
  | lam _ _ iht ihb => exact .lam (iht s) (ihb s.up)
  | pi _ _ iht ihb => exact .pi (iht s) (ihb s.up)

lemma abs (henv : env.Admits noFree) (h : env.Computes f m m') (xs : List Local) :
    env.Computes f (m.abs xs) (m'.abs xs) := by
  induction xs with
  | nil => rwa [abs_nil, abs_nil]
  | cons x xs ih =>
    rw [abs_cons, abs_cons, close_eq_replace, close_eq_replace]
    exact .lam (.refl _) (ih.replace henv _)

/-- A function on the hypotheses of a telescope, abstracted over them, is that function. -/
lemma abs_eta (henv : env.Admits noFree) {g : Term} (hg : g.In S 0) (hxs : ∀ x ∈ xs, ¬ S.free x.id)
    (hnodup : (xs.map Local.id).Nodup) : env.Computes f ((g.apply (xs.map Local.term)).abs xs) g := by
  induction xs generalizing S g with
  | nil => exact (Term.abs_nil _).symm ▸ .refl g
  | cons x xs ih =>
    obtain ⟨hx, hnodup⟩ := nodup_cons.mp hnodup
    rw [forall_mem_cons] at hxs
    have hgx : (g.app x.term).In (S.push x.id) 0 := ⟨hg.widen (S.le_push x.id), .inr rfl⟩
    have hinner : env.Computes f (((g.app x.term).apply (xs.map Local.term)).abs xs) (g.app x.term) := by
      refine ih hgx (fun y hy => ?_) hnodup
      rintro (hfree | hyx)
      · exact hxs.2 y hy hfree
      · exact hx (hyx ▸ mem_map_of_mem hy)
    have hclose : (g.app x.term).close [x.id] 0 = .app g.shift (.var 0) := by
      rw [Term.close_eq_abstracted hgx, Term.replace, Term.replace_abstracted_eq_shift hg hxs.1]
      exact congrArg (Term.app g.shift) (if_pos rfl)
    have hbody := hinner.replace henv (.closing [x.id] 0)
    rw [← Term.close_eq_replace, ← Term.close_eq_replace, hclose] at hbody
    rw [Term.abs_cons]
    exact (Computes.lam (.refl _) hbody).trans (.eta x.name x.type g)

/-- An abstraction over a telescope on an argument for each of its hypotheses. -/
lemma abs_replace_apply (hxs : Local.AllIn S xs) (hm : m.In (S.pushAll xs) 0) (hlen : xs.length = as.length)
    (s : Replacement) : env.Computes f (((m.abs xs).replace s).apply as) (m.replace (s.putAll xs as)) := by
  induction xs generalizing S s as with
  | nil =>
    obtain rfl := length_eq_zero_iff.mp hlen.symm
    exact (abs_nil m).symm ▸ .refl _
  | cons x xs ih =>
    cases as with
    | nil => simp at hlen
    | cons a as =>
      have hbody : (m.abs xs).In (S.push x.id) 0 := .abs hxs.2 hm
      have hstep : env.Computes f (.app ((m.abs (x :: xs)).replace s) a) ((m.abs xs).replace (s.put x.id a)) := by
        rw [abs_cons, ← replace_close_instantiate hbody s x.id a]
        exact .beta _ _ _ _
      exact (hstep.apply_left as).trans (ih hxs.2 hm (by simpa using hlen) (s.put x.id a))

lemma abs_apply (hxs : Local.AllIn S xs) (hm : m.In (S.pushAll xs) 0) (hlen : xs.length = as.length) :
    env.Computes f ((m.abs xs).apply as) (m.replace (Replacement.id.putAll xs as)) := by
  have h : env.Computes f (((m.abs xs).replace .id).apply as) _ := abs_replace_apply hxs hm hlen .id
  rwa [replace_id] at h

end Computes

end Env

end ProofAssistant
