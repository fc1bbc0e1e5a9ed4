import Mathlib.Order.MinMax
import ProofAssistant.Proofs.Places

/-!
# Occurrences of a term in another

A pattern occurs in a term where a part of the term is written like the pattern. Abstraction puts an index for the
occurrences, instantiation puts a term for the index; for terms without loose indices each undoes the other.
-/

namespace ProofAssistant

namespace Term

/-- A part of the term is written like the pattern. -/
inductive OccursIn (p : Term) : Term → Prop
  | here {m : Term} : m.Alike p → OccursIn p m
  | fn {f a : Term} : OccursIn p f → OccursIn p (.app f a)
  | arg {f a : Term} : OccursIn p a → OccursIn p (.app f a)
  | lamType {x : Name} {t b : Term} : OccursIn p t → OccursIn p (.lam x t b)
  | lamBody {x : Name} {t b : Term} : OccursIn p b → OccursIn p (.lam x t b)
  | piType {x : Name} {i : Bool} {t b : Term} : OccursIn p t → OccursIn p (.pi x i t b)
  | piBody {x : Name} {i : Bool} {t b : Term} : OccursIn p b → OccursIn p (.pi x i t b)

variable {m p b body : Term}

/-- A part without loose indices is an occurrence of what it is written like. -/
lemma occursIn_of_mem_closedSubterms {s : Term} (hs : s ∈ m.closedSubterms) (hp : s.Alike p) : p.OccursIn m := by
  have hroot {m : Term} {below : List Term} (hs : s ∈ if m.looseBound = 0 then m :: below else below)
      (hbelow : s ∈ below → p.OccursIn m) : p.OccursIn m := by
    split at hs
    · rcases List.mem_cons.mp hs with rfl | hs
      · exact .here hp
      · exact hbelow hs
    · exact hbelow hs
  induction m with
  | app f a ihf iha =>
    exact hroot hs fun hs => (List.mem_append.mp hs).elim (fun hs => .fn (ihf hs)) fun hs => .arg (iha hs)
  | lam x t b iht ihb =>
    exact hroot hs fun hs => (List.mem_append.mp hs).elim (fun hs => .lamType (iht hs)) fun hs => .lamBody (ihb hs)
  | pi x i t b iht ihb =>
    exact hroot hs fun hs => (List.mem_append.mp hs).elim (fun hs => .piType (iht hs)) fun hs => .piBody (ihb hs)
  | _ => exact hroot hs fun hs => absurd hs List.not_mem_nil

/-! ## Counting occurrences -/

lemma occursIn_iff : p.OccursIn m ↔ m.occurrences p ≠ [] := by
  constructor
  · intro h
    induction h with
    | here h => simp [occurrences_of_alike (alphaEq_iff.mpr h)]
    | fn _ ih | arg _ ih => simp [occurrences_app, ih]
    | lamType _ ih | lamBody _ ih => simp [occurrences_lam, ih]
    | piType _ ih | piBody _ ih => simp [occurrences_pi, ih]
  · intro h
    have hroot {m l r : Term} {left right : Branch} (hm : m.occurrences p = (if m.alphaEq p then [[]] else []) ++
        ((l.occurrences p).map (left :: ·) ++ (r.occurrences p).map (right :: ·))) (h : m.occurrences p ≠ []) :
        m.Alike p ∨ l.occurrences p ≠ [] ∨ r.occurrences p ≠ [] := by
      rw [← alphaEq_iff]
      by_contra hno
      simp_all
    induction m with
    | app f a ihf iha =>
      rcases hroot (occurrences_app f a p) h with h | h | h
      exacts [.here h, .fn (ihf h), .arg (iha h)]
    | lam x t b iht ihb =>
      rcases hroot (occurrences_lam x t b p) h with h | h | h
      exacts [.here h, .lamType (iht h), .lamBody (ihb h)]
    | pi x i t b iht ihb =>
      rcases hroot (occurrences_pi x i t b p) h with h | h | h
      exacts [.here h, .piType (iht h), .piBody (ihb h)]
    | _ => exact .here (alphaEq_iff.mp (by simpa [occurrences, places, at?] using h))

/-- Some occurrence is counted exactly if there is one. -/
lemma lt_abstractAt_iff (m p : Term) (selected : Nat → Bool) (depth seen : Nat) :
    seen < (m.abstractAt p selected depth seen).2 ↔ p.OccursIn m := by
  rw [abstractAt_eq, occursIn_iff, ← List.length_pos_iff]
  exact Nat.lt_add_right_iff_pos

instance (p m : Term) : Decidable (p.OccursIn m) :=
  decidable_of_iff _ (lt_abstractAt_iff m p (fun _ => true) 0 0)

/-- The term with an index for all occurrences of the pattern. -/
def abstractAll (m p : Term) : Term :=
  (m.abstractAt p (fun _ => true) 0 0).1

lemma abstractOccurrences_eq_some_iff :
    m.abstractOccurrences p none = some body ↔ p.OccursIn m ∧ m.abstractAll p = body := by
  rw [← lt_abstractAt_iff m p (fun _ => true) 0 0, abstractAll]
  simp [abstractOccurrences]

lemma abstractOccurrences_eq_none_iff : m.abstractOccurrences p none = none ↔ ¬ p.OccursIn m := by
  rw [← lt_abstractAt_iff m p (fun _ => true) 0 0]
  simp [abstractOccurrences]

/-! ## Putting the pattern back -/

section Opening

variable (f a t : Term) (k : Nat)

lemma openAt_of_looseBound {xs : List Term} {k : Nat} (h : m.looseBound ≤ k) : m.openAt xs k = m := by
  unfold openAt
  rw [if_pos h]

lemma openAt_var_lt {i : Nat} (h : i < k) : (var i).openAt [p] k = var i := by
  rw [openAt_eq_mapVars]
  exact openVar_of_lt h

lemma openAt_var_self (hp : p.looseBound = 0) : (var k).openAt [p] k = p := by
  simp [openAt_eq_mapVars, mapVars, openVar, ← lift_eq_mapVars, lift_of_looseBound hp]

lemma openAt_var_gt {i : Nat} (h : k < i) : (var i).openAt [p] k = var (i - 1) := by
  rw [openAt_eq_mapVars]
  exact openVar_of_le h

lemma openAt_app : (app f a).openAt [p] k = app (f.openAt [p] k) (a.openAt [p] k) := by
  simp only [openAt_eq_mapVars, mapVars]

lemma openAt_lam (x : Name) : (lam x t b).openAt [p] k = lam x (t.openAt [p] k) (b.openAt [p] (k + 1)) := by
  simp only [openAt_eq_mapVars, mapVars]

lemma openAt_pi (x : Name) (i : Bool) :
    (pi x i t b).openAt [p] k = pi x i (t.openAt [p] k) (b.openAt [p] (k + 1)) := by
  simp only [openAt_eq_mapVars, mapVars]

end Opening

/-- What is put at the index of the occurrences comes back there, whichever of them are replaced. -/
lemma openAt_abstractAt (hp : p.looseBound = 0) (m : Term) (selected : Nat → Bool) (depth seen : Nat) :
    ((m.abstractAt p selected depth seen).1.openAt [p] depth).Alike m := by
  fun_induction abstractAt m p selected depth seen with
  | case1 m depth seen h =>
    rw [openAt_var_self depth hp]
    exact (alphaEq_iff.mp h).symm
  | case2 m depth seen _ h =>
    have hback : (m.lift 1 depth).openAt [p] depth = m := openAt_lift [p] depth m
    rw [hback]
    exact .refl m
  | case3 depth seen i _ =>
    split
    · rw [openAt_var_gt depth (by omega)]
      exact .refl _
    · rw [openAt_var_lt depth (by omega)]
      exact .refl _
  | case4 depth seen f a f' seen₁ hf a' seen₂ ha _ ihf iha =>
    rw [hf] at ihf
    rw [ha] at iha
    rw [openAt_app]
    exact .app ihf iha
  | case5 depth seen x t b t' seen₁ ht b' seen₂ hb _ iht ihb =>
    rw [ht] at iht
    rw [hb] at ihb
    rw [openAt_lam]
    exact .lam iht ihb
  | case6 depth seen x i t b t' seen₁ ht b' seen₂ hb _ iht ihb =>
    rw [ht] at iht
    rw [hb] at ihb
    rw [openAt_pi]
    exact .pi iht ihb
  | case7 depth seen m hvar happ hlam hpi _ =>
    cases m with
    | var i => exact absurd rfl (hvar i)
    | app f a => exact absurd rfl (happ f a)
    | lam x t b => exact absurd rfl (hlam x t b)
    | pi x i t b => exact absurd rfl (hpi x i t b)
    | _ => rw [openAt_of_looseBound (Nat.zero_le depth)]; exact .refl _

lemma Alike.looseBound {a b : Term} (h : a.Alike b) : a.looseBound = b.looseBound := by
  induction h with
  | app _ _ ih ih' | lam _ _ ih ih' | pi _ _ ih ih' => simp only [Term.looseBound, ih, ih']
  | _ => rfl

/-- The pattern is left nowhere if an index is put for all its occurrences. -/
lemma not_occursIn_abstractAt (hp : p.looseBound = 0) (m : Term) (depth seen : Nat) :
    ¬ p.OccursIn (m.abstractAt p (fun _ => true) depth seen).1 := by
  have hvar (i : Nat) : ¬ p.OccursIn (var i) := by
    intro h
    cases h with
    | here h => exact Nat.succ_ne_zero i (h.looseBound.trans hp)
  -- a part that looks like the pattern has no loose index, and so has looked like it before
  have hroot {m : Term} (depth seen : Nat) (h : ¬ m.alphaEq p) :
      ¬ (m.abstractAt p (fun _ => true) depth seen).1.alphaEq p := by
    intro halike
    rw [alphaEq_iff] at halike
    have hopen := openAt_abstractAt hp m (fun _ => true) depth seen
    rw [openAt_of_looseBound (by rw [halike.looseBound, hp]; exact Nat.zero_le depth)] at hopen
    exact h (alphaEq_iff.mpr (hopen.symm.trans halike))
  fun_induction abstractAt m p (fun _ => true) depth seen with
  | case1 m depth seen h => exact hvar depth
  | case2 m depth seen _ h => exact absurd rfl h
  | case3 depth seen i h => split <;> exact hvar _
  | case4 depth seen f a f' seen₁ hf a' seen₂ ha h ihf iha =>
    have hroot := hroot depth seen h
    rw [abstractAt, if_neg h] at hroot
    simp only [hf, ha, occursIn_iff] at hroot ihf iha ⊢
    simp [occurrences_app, hroot, ihf, iha]
  | case5 depth seen x t b t' seen₁ ht b' seen₂ hb h iht ihb
  | case6 depth seen x i t b t' seen₁ ht b' seen₂ hb h iht ihb =>
    have hroot := hroot depth seen h
    rw [abstractAt, if_neg h] at hroot
    simp only [ht, hb, occursIn_iff] at hroot iht ihb ⊢
    simp [occurrences_lam, occurrences_pi, hroot, iht, ihb]
  | case7 depth seen m hvar happ hlam hpi h =>
    intro hocc
    cases hocc with
    | here h' => exact h (alphaEq_iff.mpr h')
    | fn | arg => exact happ _ _ rfl
    | lamType | lamBody => exact hlam _ _ _ rfl
    | piType | piBody => exact hpi _ _ _ _ rfl

/-- Abstraction of the occurrences of a pattern without loose indices: it succeeds if there are some, or one of the
given number, and to open what it gives is to put the pattern back. Of the pattern nothing is left, or only the one
occurrence is replaced. -/
theorem abstractOccurrences_exact (m : Term) (hp : p.looseBound = 0) :
    ((∃ b, m.abstractOccurrences p none = some b) ↔ p.OccursIn m) ∧
    (∀ b, m.abstractOccurrences p none = some b → (b.openAt [p] 0).alphaEq m ∧ ¬ p.OccursIn b) ∧
    ∀ k, ((∃ b, m.abstractOccurrences p (some k) = some b) ↔ 1 ≤ k ∧ k ≤ (m.occurrences p).length) ∧
      ∀ b, m.abstractOccurrences p (some k) = some b → (b.openAt [p] 0).alphaEq m ∧
        ∃ π, (m.occurrences p)[k - 1]? = some π ∧ b = (m.lift 1 0).putAt π (.var (π.count .body)) := by
  refine ⟨by simp [abstractOccurrences_eq_some_iff], fun b hb => ?_, fun k => ?_⟩
  · obtain ⟨-, rfl⟩ := abstractOccurrences_eq_some_iff.mp hb
    exact ⟨alphaEq_iff.mpr (openAt_abstractAt hp m _ 0 0), not_occursIn_abstractAt hp m 0 0⟩
  · have hsome (b : Term) : m.abstractOccurrences p (some k) = some b ↔
        (1 ≤ k ∧ k ≤ (m.occurrences p).length) ∧ (m.abstractAt p (k == ·) 0 0).1 = b := by
      simp [abstractOccurrences, abstractAt_eq, Nat.succ_le_iff]
    refine ⟨by simp [hsome], fun b hb => ?_⟩
    obtain ⟨⟨hk, hle⟩, rfl⟩ := (hsome b).mp hb
    have hget : (m.occurrences p)[k - 1]? = some _ := List.getElem?_eq_getElem (by omega)
    refine ⟨alphaEq_iff.mpr (openAt_abstractAt hp m _ 0 0), _, hget, ?_⟩
    simp [abstractAt_eq, select_one, Nat.lt_of_succ_le hk, hget, putVars]

/-- The second of two occurrences, below a binder. -/
theorem abstractOccurrences_exact_second :
    let p : Term := .free { number := 0 }
    let m := lam ⟨"x"⟩ p (.app p (.var 1))
    let b := lam ⟨"x"⟩ p (.app (.var 1) (.var 2))
    m.abstractOccurrences p (some 2) = some b ∧ 2 ≤ (m.occurrences p).length ∧ (b.openAt [p] 0).alphaEq m := by
  intro p m b
  obtain ⟨hiff, hback⟩ := (abstractOccurrences_exact m (p := p) rfl).2.2 2
  have h : m.abstractOccurrences p (some 2) = some b := by decide
  exact ⟨h, (hiff.mp ⟨b, h⟩).2, (hback b h).1⟩

end Term

end ProofAssistant
