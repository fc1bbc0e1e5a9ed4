import ProofAssistant.Proofs.Traversals

/-!
# Iterated contraction

Contraction opens one binder for each argument, so that arguments are put past those that were put before them. The
result is that of opening all binders at once (`Term.beta_exact`).
-/

namespace ProofAssistant.Term

/-- The abstraction over binders of the given names and types, the first outermost. -/
def lams : List (Name × Term) → Term → Term
  | [], b => b
  | (x, t) :: binders, b => .lam x t (lams binders b)

/-- Opening goes through the binders, whose types change, to the body. -/
lemma openAt_lams (xs : List Term) (k : Nat) (binders : List (Name × Term)) (b : Term) :
    ∃ binders', binders'.length = binders.length ∧
      (lams binders b).openAt xs k = lams binders' (b.openAt xs (k + binders.length)) := by
  induction binders generalizing k with
  | nil => exact ⟨[], rfl, rfl⟩
  | cons binder binders ih =>
    obtain ⟨x, t⟩ := binder
    obtain ⟨binders', hlength, hopen⟩ := ih (k + 1)
    refine ⟨(x, t.openAt xs k) :: binders', congrArg Nat.succ hlength, ?_⟩
    rw [Nat.add_right_comm] at hopen
    rw [lams, lams, List.length_cons, ← Nat.add_assoc, ← hopen]
    simp only [openAt_eq_mapVars, mapVars]

/-- One argument for each binder puts all of them at once, whatever arguments follow. -/
lemma beta_lams (binders : List (Name × Term)) (b : Term) (as rest : List Term) (h : as.length = binders.length) :
    (lams binders b).beta (as ++ rest) = (b.openAt as 0).beta rest := by
  induction as generalizing binders b with
  | nil =>
    obtain rfl := List.eq_nil_of_length_eq_zero h.symm
    have hopen : b.openAt [] 0 = b := by simpa [lift_zero] using openAt_lift [] 0 b
    rw [hopen]
    rfl
  | cons a as ih =>
    obtain ⟨⟨x, t⟩, binders, rfl⟩ := List.exists_cons_of_length_eq_add_one h.symm
    have hlength : as.length = binders.length := Nat.succ.inj h
    -- the first argument is put below the binders of the others, which are then opened without it
    obtain ⟨binders', hlength', hopen⟩ := openAt_lams [a] 0 binders b
    calc (lams ((x, t) :: binders) b).beta (a :: as ++ rest)
      _ = ((lams binders b).openAt [a] 0).beta (as ++ rest) := rfl
      _ = ((b.openAt [a] (0 + as.length)).openAt as 0).beta rest := by
        rw [hopen, ih binders' _ (hlength.trans hlength'.symm), hlength]
      _ = (b.openAt (a :: as) 0).beta rest := by rw [openAt_cons]

/-- Contracting one argument after the other is opening with all of them, and opening undoes lifting. -/
theorem beta_exact :
    (∀ (binders : List (Name × Term)) (b : Term) (args rest : List Term), args.length = binders.length →
      (lams binders b).beta (args ++ rest) = (b.openAt args 0).beta rest) ∧
    ∀ (t : Term) (n k : Nat) (xs : List Term), xs.length = n → (t.lift n k).openAt xs k = t := by
  refine ⟨beta_lams, fun t n k xs hn => ?_⟩
  rw [← hn]
  exact openAt_lift xs k t

/-- Two loose arguments for two binders, and a third argument for what comes out. -/
theorem beta_exact_loose :
    let pair := (Term.app (.var 1) (.app (.var 0) (.var 2)))
    (lams [(⟨"x"⟩, .sort .zero), (⟨"y"⟩, .var 0)] pair).beta [.var 1, .var 0, .var 5] =
        (pair.openAt [.var 1, .var 0] 0).beta [.var 5] ∧
      (pair.lift 2 1).openAt [.var 3, .var 0] 1 = pair := by
  intro pair
  exact ⟨beta_exact.1 _ pair [.var 1, .var 0] [.var 5] rfl, beta_exact.2 pair 2 1 [.var 3, .var 0] rfl⟩

end ProofAssistant.Term
