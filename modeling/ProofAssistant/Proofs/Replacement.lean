import ProofAssistant.Proofs.Traversals

/-!
# Replacements

Lifting, opening, closing and substitution are instances of one operation: a replacement gives a term
for every loose index and for every hypothesis, and `Term.replace` puts them in, lifted under binders.
Replacements compose (`Term.replace_replace`), and two of them act alike on a term if they agree on
what occurs in it (`Term.replace_congr`); equations between the other operations follow from these two.
-/

namespace ProofAssistant

open List

variable {ξ : Nat → Nat} {m : Term} {s : Replacement}
variable {S : Scope} {k k' j : Nat} {s' : Replacement}

/-! ## Renaming of loose indices -/

/-- A renaming under a binder. -/
def upRenaming (ξ : Nat → Nat) : Nat → Nat
  | 0 => 0
  | i + 1 => ξ i + 1

namespace Term

/-- Renames the loose indices. -/
def rename (ξ : Nat → Nat) : Term → Term
  | .var i => .var (ξ i)
  | .sort l => .sort l
  | .const c ls => .const c ls
  | .ctor t i c ls => .ctor t i c ls
  | .app f a => .app (f.rename ξ) (a.rename ξ)
  | .lam x t b => .lam x (t.rename ξ) (b.rename (upRenaming ξ))
  | .pi x i t b => .pi x i (t.rename ξ) (b.rename (upRenaming ξ))
  | .free x => .free x
  | .hole h d => .hole h d

lemma upRenaming_id : upRenaming id = id := by
  funext i
  cases i <;> rfl

lemma upRenaming_comp (ξ ζ : Nat → Nat) : upRenaming ζ ∘ upRenaming ξ = upRenaming (ζ ∘ ξ) := by
  funext i
  cases i <;> rfl

@[simp] lemma rename_id (m : Term) : m.rename id = m := by
  induction m with
  | app f a ihf iha => rw [rename, ihf, iha]
  | lam x t b iht ihb | pi x _ t b iht ihb => rw [rename, upRenaming_id, iht, ihb]
  | _ => rfl

lemma rename_rename (ξ ζ : Nat → Nat) (m : Term) : (m.rename ξ).rename ζ = m.rename (ζ ∘ ξ) := by
  induction m generalizing ξ ζ with
  | app f a ihf iha => rw [rename, rename, rename, ihf, iha]
  | lam x t b iht ihb | pi x _ t b iht ihb =>
    rw [rename, rename, rename, iht, ihb, upRenaming_comp]
  | _ => rfl

lemma mapLevels_rename (f : Level → Level) (ξ : Nat → Nat) (m : Term) :
    (m.rename ξ).mapLevels f = (m.mapLevels f).rename ξ := by
  induction m generalizing ξ with
  | app g a ihg iha => rw [rename, mapLevels, mapLevels, rename, ihg, iha]
  | lam x t b iht ihb | pi x _ t b iht ihb =>
    rw [rename, mapLevels, mapLevels, rename, iht, ihb]
  | _ => rfl

/-- Lifting by one, as at a binder. -/
def shift (m : Term) : Term :=
  m.rename (· + 1)

private lemma upRenaming_lift (n k : Nat) :
    upRenaming (fun i => if i < k then i else i + n) = fun i => if i < k + 1 then i else i + n := by
  funext i
  cases i with
  | zero => simp [upRenaming]
  | succ i =>
    by_cases hi : i < k
    · simp [upRenaming, hi]
    · simp only [upRenaming, hi, if_false, Nat.add_lt_add_iff_right]
      omega

/-- Lifting renames the indices from the cutoff on. -/
lemma lift_eq_rename (n k : Nat) (m : Term) :
    m.lift n k = m.rename fun i => if i < k then i else i + n := by
  rw [lift_eq_mapVars]
  induction m generalizing k with
  | var i => exact (apply_ite Term.var ..).symm
  | app f a ihf iha => rw [mapVars, rename, ihf, iha]
  | lam x t b iht ihb | pi x _ t b iht ihb => rw [mapVars, rename, iht, ihb, upRenaming_lift]
  | _ => rfl

end Term

/-! ## Replacement of loose indices and hypotheses -/

/-- A term for each loose index and for each hypothesis. -/
@[ext] structure Replacement where
  var : Nat → Term
  free : Id → Term

namespace Replacement

/-- Every index and every hypothesis stands for itself. -/
protected def id : Replacement := ⟨.var, .free⟩

/-- A replacement under a binder. -/
def up (s : Replacement) : Replacement where
  var
    | 0 => .var 0
    | i + 1 => (s.var i).shift
  free x := (s.free x).shift

end Replacement

namespace Term

/-- Puts in the terms that a replacement gives. -/
def replace (s : Replacement) : Term → Term
  | .var i => s.var i
  | .sort l => .sort l
  | .const c ls => .const c ls
  | .ctor t i c ls => .ctor t i c ls
  | .app f a => .app (f.replace s) (a.replace s)
  | .lam x t b => .lam x (t.replace s) (b.replace s.up)
  | .pi x i t b => .pi x i (t.replace s) (b.replace s.up)
  | .free x => s.free x
  | .hole h d => .hole h d

lemma replace_congr (hm : m.In S k) (hvar : ∀ i < k, s.var i = s'.var i)
    (hfree : ∀ x, S.free x → s.free x = s'.free x) : m.replace s = m.replace s' := by
  induction m generalizing k s s' with
  | var i => exact hvar i hm
  | free x => exact hfree x hm
  | app f a ihf iha => rw [replace, replace, ihf hm.1 hvar hfree, iha hm.2 hvar hfree]
  | lam x t b iht ihb | pi x _ t b iht ihb =>
    have hb : ∀ i < k + 1, s.up.var i = s'.up.var i := by
      intro i hi
      cases i with
      | zero => rfl
      | succ i => exact congrArg shift (hvar i (by omega))
    rw [replace, replace, iht hm.1 hvar hfree, ihb hm.2 hb fun y hy => congrArg shift (hfree y hy)]
  | _ => rfl

@[simp] lemma up_id : Replacement.id.up = .id := by
  ext i
  · cases i <;> rfl
  · rfl

@[simp] lemma replace_id (m : Term) : m.replace .id = m := by
  induction m with
  | app f a ihf iha => rw [replace, ihf, iha]
  | lam x t b iht ihb | pi x _ t b iht ihb => rw [replace, up_id, iht, ihb]
  | _ => rfl

lemma replace_eq_self (hm : m.In S k) (hvar : ∀ i < k, s.var i = .var i)
    (hfree : ∀ x, S.free x → s.free x = .free x) : m.replace s = m := by
  have hid : m.replace s = m.replace .id := replace_congr hm hvar hfree
  rw [hid, replace_id]

lemma In.replace_congr (hm : m.In S 0) (h : ∀ x, S.free x → s.free x = s'.free x) : m.replace s = m.replace s' :=
  Term.replace_congr hm (fun i hi => absurd hi (Nat.not_lt_zero i)) h

lemma In.replace_eq_self (hm : m.In S 0) (h : ∀ x, S.free x → s.free x = .free x) : m.replace s = m :=
  Term.replace_eq_self hm (fun i hi => absurd hi (Nat.not_lt_zero i)) h

/-! ### Composition -/

lemma replace_rename (ξ : Nat → Nat) (s : Replacement) (m : Term) :
    (m.rename ξ).replace s = m.replace ⟨fun i => s.var (ξ i), s.free⟩ := by
  induction m generalizing ξ s with
  | app f a ihf iha => rw [rename, replace, replace, ihf, iha]
  | lam x t b iht ihb | pi x _ t b iht ihb =>
    have hup : Replacement.up ⟨fun i => s.var (ξ i), s.free⟩ =
        ⟨fun i => s.up.var (upRenaming ξ i), s.up.free⟩ := by
      ext i
      · cases i <;> rfl
      · rfl
    rw [rename, replace, replace, iht, ihb, hup]
  | _ => rfl

lemma shift_rename (ξ : Nat → Nat) (m : Term) : m.shift.rename (upRenaming ξ) = (m.rename ξ).shift := by
  rw [shift, shift, rename_rename, rename_rename]
  rfl

lemma rename_replace (ξ : Nat → Nat) (s : Replacement) (m : Term) : (m.replace s).rename ξ =
      m.replace ⟨fun i => (s.var i).rename ξ, fun x => (s.free x).rename ξ⟩ := by
  induction m generalizing ξ s with
  | app f a ihf iha => rw [replace, replace, rename, ihf, iha]
  | lam x t b iht ihb | pi x _ t b iht ihb =>
    have hup : Replacement.up ⟨fun i => (s.var i).rename ξ, fun x => (s.free x).rename ξ⟩ =
        ⟨fun i => (s.up.var i).rename (upRenaming ξ), fun x => (s.up.free x).rename (upRenaming ξ)⟩ := by
      ext i
      · cases i with
        | zero => rfl
        | succ i => exact (shift_rename ξ (s.var i)).symm
      · exact (shift_rename ξ (s.free _)).symm
    rw [replace, replace, rename, iht, ihb, hup]
  | _ => rfl

/-- A replacement under a binder passes a lifting. -/
lemma replace_shift (s : Replacement) (m : Term) : m.shift.replace s.up = (m.replace s).shift := by
  rw [shift, shift, replace_rename, rename_replace]
  rfl

lemma replace_replace (s s' : Replacement) (m : Term) : (m.replace s).replace s' =
      m.replace ⟨fun i => (s.var i).replace s', fun x => (s.free x).replace s'⟩ := by
  induction m generalizing s s' with
  | app f a ihf iha => rw [replace, replace, replace, ihf, iha]
  | lam x t b iht ihb | pi x _ t b iht ihb =>
    have hup : Replacement.up ⟨fun i => (s.var i).replace s', fun x => (s.free x).replace s'⟩ =
        ⟨fun i => (s.up.var i).replace s'.up, fun x => (s.up.free x).replace s'.up⟩ := by
      ext i
      · cases i with
        | zero => rfl
        | succ i => exact (replace_shift s' (s.var i)).symm
      · exact (replace_shift s' (s.free _)).symm
    rw [replace, replace, replace, iht, ihb, hup]
  | _ => rfl

lemma rename_eq_replace (ξ : Nat → Nat) (m : Term) : m.rename ξ = m.replace ⟨fun i => .var (ξ i), .free⟩ := by
  rw [← replace_id (m.rename ξ), replace_rename]
  rfl

/-- Renamings that agree below the bound on the loose indices act alike. -/
lemma rename_congr {ζ : Nat → Nat} (h : ∀ i < m.looseBound, ξ i = ζ i) : m.rename ξ = m.rename ζ := by
  rw [rename_eq_replace, rename_eq_replace]
  exact replace_congr (in_looseBound (Nat.le_refl _)) (fun i hi => congrArg Term.var (h i hi)) fun _ _ => rfl

/-- A renaming that keeps the indices below the bound keeps the term. -/
lemma rename_eq_self (h : ∀ i < m.looseBound, ξ i = i) : m.rename ξ = m := by
  rw [rename_congr (ζ := id) h, rename_id]

/-- A traversal is a replacement if what it puts in is lifted below binders. -/
lemma mapVars_eq_replace {s : Nat → Replacement} (hs : ∀ k, (s k).up = s (k + 1)) (k : Nat) (m : Term) :
    m.mapVars (fun k => (s k).var) (fun k => (s k).free) k = m.replace (s k) := by
  induction m generalizing k with
  | app f a ihf iha => rw [mapVars, replace, ihf, iha]
  | lam x t b iht ihb | pi x _ t b iht ihb => rw [mapVars, replace, iht, ihb, hs]
  | _ => rfl

/-! ### Opening a body and closing it again -/

end Term

/-- Puts a term for the index zero; the other indices drop by one. -/
def Replacement.single (a : Term) : Replacement where
  var
    | 0 => a
    | i + 1 => .var i
  free := .free

/-- Puts a term for the index `k`; the indices above it drop by one. -/
def Replacement.singleAt (a : Term) (k : Nat) : Replacement where
  var i := if i < k then .var i else if i = k then a.lift k 0 else .var (i - 1)
  free := .free

/-- Turns a hypothesis into the index zero; the loose indices make room for it. -/
def Replacement.abstracted (x : Id) : Replacement where
  var i := .var (i + 1)
  free y := if y = x then .var 0 else .free y

/-- Puts indices from `k` on for the hypotheses `xs`, the last of them for `k` itself. -/
def Replacement.closing (xs : List Id) (k : Nat) : Replacement where
  var := .var
  free x :=
    match xs.reverse.idxOf? x with
    | some i => .var (k + i)
    | none => .free x

namespace Term

variable {S S' : Scope} {x : Id} {k : Nat} {b m : Term} {f : Level → Level}

lemma up_singleAt (a : Term) (k : Nat) : (Replacement.singleAt a k).up = .singleAt a (k + 1) := by
  ext i
  · cases i with
    | zero => simp [Replacement.up, Replacement.singleAt]
    | succ i =>
      simp only [Replacement.up, Replacement.singleAt, Nat.add_lt_add_iff_right, Nat.add_right_cancel_iff]
      split
      · rfl
      · split
        · rw [lift_eq_rename, lift_eq_rename, shift, rename_rename]
          rfl
        · rename_i h h'
          rw [shift, rename]
          congr 1
          omega
  · rfl

lemma openAt_eq_replace (a : Term) (k : Nat) (m : Term) : m.openAt [a] k = m.replace (.singleAt a k) := by
  have hvar : openVar [a] = fun k => (Replacement.singleAt a k).var := by
    funext k i
    simp only [Replacement.singleAt, lift_eq_mapVars]
    rcases Nat.lt_trichotomy i k with hi | rfl | hi
    · rw [openVar_of_lt hi, if_pos hi]
    · simp [openVar]
    · rw [openVar_of_le hi, if_neg (by omega), if_neg (by omega), length_singleton]
  rw [openAt_eq_mapVars, hvar]
  exact mapVars_eq_replace (up_singleAt a) k m

lemma instantiate_eq_replace (b a : Term) : b.instantiate a = b.replace (.single a) := by
  rw [instantiate, openAt_eq_replace]
  congr 1
  ext i
  · cases i with
    | zero => simp [Replacement.singleAt, Replacement.single, lift_zero]
    | succ i => simp [Replacement.singleAt, Replacement.single]
  · rfl

lemma up_closing (xs : List Id) (k : Nat) : (Replacement.closing xs k).up = .closing xs (k + 1) := by
  ext i
  · cases i <;> rfl
  · simp only [Replacement.up, Replacement.closing]
    split <;> simp [shift, rename]; omega

/-- Closing puts indices for hypotheses and leaves the loose indices alone. -/
lemma close_eq_replace (xs : List Id) (k : Nat) (m : Term) : m.close xs k = m.replace (.closing xs k) := by
  rw [close_eq_mapVars]
  exact mapVars_eq_replace (up_closing xs) k m

/-- A lifted term does not see what is put for the index that it was lifted past. -/
@[simp] lemma instantiate_shift (m a : Term) : m.shift.instantiate a = m := by
  rw [instantiate_eq_replace, shift, replace_rename]
  exact replace_id m

lemma replace_instantiate (s : Replacement) (b a : Term) :
    (b.instantiate a).replace s = (b.replace s.up).instantiate (a.replace s) := by
  rw [instantiate_eq_replace, instantiate_eq_replace, replace_replace, replace_replace]
  congr 1
  ext i
  · cases i with
    | zero => rfl
    | succ i => exact ((instantiate_eq_replace ..).symm.trans (instantiate_shift ..)).symm
  · exact ((instantiate_eq_replace ..).symm.trans (instantiate_shift ..)).symm

lemma rename_instantiate (ξ : Nat → Nat) (b a : Term) :
    (b.instantiate a).rename ξ = (b.rename (upRenaming ξ)).instantiate (a.rename ξ) := by
  have hup : Replacement.up ⟨fun i => .var (ξ i), .free⟩ = ⟨fun i => .var (upRenaming ξ i), .free⟩ := by
    ext i
    · cases i <;> rfl
    · rfl
  rw [rename_eq_replace, replace_instantiate, hup, ← rename_eq_replace, ← rename_eq_replace]

/-- The hypothesis that a body was opened with turns back into its variable, if the body does not
mention it. -/
lemma replace_abstracted (hb : b.In S k) (hx : ¬ S.free x) :
    (b.instantiate (.free x)).replace (.abstracted x) = b := by
  rw [instantiate_eq_replace, replace_replace]
  refine replace_eq_self hb (fun i _ => ?_) (fun y hy => ?_)
  · cases i with
    | zero => exact if_pos rfl
    | succ i => rfl
  · have hyx : y ≠ x := fun h => hx (h ▸ hy)
    exact if_neg hyx

/-- Abstracting a hypothesis that does not occur makes room for the index only. -/
lemma replace_abstracted_eq_shift (hm : m.In S k) (hx : ¬ S.free x) : m.replace (.abstracted x) = m.shift := by
  rw [shift, rename_eq_replace]
  refine replace_congr hm (fun i _ => rfl) fun y hy => ?_
  have hyx : y ≠ x := fun h => hx (h ▸ hy)
  exact if_neg hyx

/-- Closing over one hypothesis, in a term without loose indices. -/
lemma close_eq_abstracted (hm : m.In S 0) (x : Id) : m.close [x] 0 = m.replace (.abstracted x) := by
  rw [close_eq_replace]
  refine hm.replace_congr fun y _ => ?_
  simp only [Replacement.closing, Replacement.abstracted]
  by_cases hxy : x = y
  · subst hxy
    simp
  · simp [hxy, Ne.symm hxy]

/-- Instantiating a body at the variable of its own binder. -/
lemma instantiate_var_zero (b : Term) : (b.rename (upRenaming (· + 1))).instantiate (.var 0) = b := by
  rw [instantiate_eq_replace, replace_rename]
  have : (⟨fun i => (Replacement.single (.var 0)).var (upRenaming (· + 1) i), .free⟩ : Replacement) =
      .id := by
    ext i
    · cases i <;> rfl
    · rfl
  exact this ▸ replace_id b

/-! ### Spines -/

/-- What passes applications passes spines. -/
lemma map_apply {g : Term → Term} (hg : ∀ f a, g (.app f a) = .app (g f) (g a)) (m : Term) (as : List Term) :
    g (m.apply as) = (g m).apply (as.map g) := by
  induction as generalizing m with
  | nil => rfl
  | cons a as ih => rw [apply_cons, ih, hg, map_cons, apply_cons]

@[simp] lemma replace_apply (s : Replacement) (m : Term) (as : List Term) :
    (m.apply as).replace s = (m.replace s).apply (as.map (·.replace s)) :=
  map_apply (fun _ _ => rfl) m as

/-! ### Scopes -/

lemma In.rename (hm : m.In S k) (hξ : ∀ i < k, ξ i < k') : (m.rename ξ).In S k' := by
  induction m generalizing k k' ξ with
  | var i => exact hξ i hm
  | app f a ihf iha => exact ⟨ihf hm.1 hξ, iha hm.2 hξ⟩
  | lam x t b iht ihb | pi x _ t b iht ihb =>
    refine ⟨iht hm.1 hξ, ihb hm.2 fun i hi => ?_⟩
    cases i with
    | zero => exact Nat.succ_pos k'
    | succ i => exact Nat.succ_lt_succ (hξ i (by omega))
  | _ => exact hm

lemma In.shift (hm : m.In S k) : m.shift.In S (k + 1) :=
  hm.rename fun _ hi => Nat.succ_lt_succ hi

lemma In.replace (hm : m.In S k) (hS : Scope.Le { S with free := fun _ => False } S')
    (hvar : ∀ i < k, (s.var i).In S' k') (hfree : ∀ x, S.free x → (s.free x).In S' k') : (m.replace s).In S' k' := by
  induction m generalizing k k' s with
  | var i => exact hvar i hm
  | free x => exact hfree x hm
  | sort l => exact hS.level l hm
  | const c ls => exact hS.const c ls hm
  | ctor t i c ls => exact hS.ctor t i ls hm
  | hole h d => exact hS.hole h hm
  | app f a ihf iha => exact ⟨ihf hm.1 hvar hfree, iha hm.2 hvar hfree⟩
  | lam x t b iht ihb | pi x _ t b iht ihb =>
    refine ⟨iht hm.1 hvar hfree, ihb hm.2 (fun i hi => ?_) fun y hy => (hfree y hy).shift⟩
    cases i with
    | zero => exact Nat.succ_pos k'
    | succ i => exact (hvar i (by omega)).shift

lemma In.instantiate {a : Term} (hb : b.In S (k + 1)) (ha : a.In S k) : (b.instantiate a).In S k := by
  rw [instantiate_eq_replace]
  refine hb.replace { free := fun _ h => h.elim } (fun i hi => ?_) fun x hx => hx
  cases i with
  | zero => exact ha
  | succ i => exact Nat.lt_of_succ_lt_succ hi

lemma In.beta {as : List Term} (hm : m.In S k) (has : ∀ a ∈ as, a.In S k) : (m.beta as).In S k := by
  fun_induction Term.beta m as with
  | case1 x t b a as ih =>
    rw [forall_mem_cons] at has
    exact ih (hm.2.instantiate has.1) has.2
  | case2 m as h => exact in_apply.mpr ⟨hm, has⟩

lemma In.close (hm : m.In S k) : (m.close [x] 0).In { S with free := fun y => S.free y ∧ y ≠ x } (k + 1) := by
  rw [close_eq_replace]
  refine hm.replace { free := fun _ h => h.elim } (fun i hi => Nat.lt_succ_of_lt hi) ?_
  intro y hy
  by_cases hyx : y = x
  · simp [Replacement.closing, hyx, In]
  · simp only [Replacement.closing, reverse_singleton, idxOf?_cons, beq_eq_false_iff_ne.mpr (Ne.symm hyx)]
    exact ⟨hy, hyx⟩

/-- A body is in scope if it is so when opened with a hypothesis that it does not mention. -/
lemma In.of_instantiate_free (h : (b.instantiate (.free x)).In S' j) (hb : b.In S k) (hx : ¬ S.free x) :
    b.In { S' with free := fun y => S'.free y ∧ y ≠ x } (j + 1) := by
  rw [← replace_abstracted hb hx]
  refine h.replace { free := fun _ h => h.elim } (fun i hi => Nat.succ_lt_succ hi) fun y hy => ?_
  by_cases hyx : y = x
  · simp [Replacement.abstracted, hyx, In]
  · simp only [Replacement.abstracted, hyx]
    exact ⟨hy, hyx⟩

/-! ### Levels -/

lemma mapLevels_replace (f : Level → Level) (s : Replacement) (m : Term) : (m.replace s).mapLevels f =
      (m.mapLevels f).replace ⟨fun i => (s.var i).mapLevels f, fun x => (s.free x).mapLevels f⟩ := by
  induction m generalizing s with
  | app g a ihg iha => rw [replace, mapLevels, mapLevels, replace, ihg, iha]
  | lam x t b iht ihb | pi x _ t b iht ihb =>
    have hup : Replacement.up ⟨fun i => (s.var i).mapLevels f, fun x => (s.free x).mapLevels f⟩ =
        ⟨fun i => (s.up.var i).mapLevels f, fun x => (s.up.free x).mapLevels f⟩ := by
      ext i
      · cases i with
        | zero => rfl
        | succ i => exact (mapLevels_rename f _ _).symm
      · exact (mapLevels_rename f _ _).symm
    rw [replace, mapLevels, mapLevels, replace, iht, ihb, hup]
  | _ => rfl

lemma mapLevels_instantiate (f : Level → Level) (b a : Term) :
    (b.instantiate a).mapLevels f = (b.mapLevels f).instantiate (a.mapLevels f) := by
  rw [instantiate_eq_replace, instantiate_eq_replace, mapLevels_replace]
  congr 1
  ext i
  · cases i <;> rfl
  · rfl

@[simp] lemma mapLevels_apply (f : Level → Level) (m : Term) (as : List Term) :
    (m.apply as).mapLevels f = (m.mapLevels f).apply (as.map (·.mapLevels f)) :=
  map_apply (fun _ _ => rfl) m as

lemma mapLevels_eq_self (hf : ∀ l, f l = l) (m : Term) : m.mapLevels f = m := by
  obtain rfl : f = id := funext hf
  induction m with
  | app g a ihg iha => rw [mapLevels, ihg, iha]
  | lam x t b iht ihb | pi x _ t b iht ihb => rw [mapLevels, iht, ihb]
  | _ => simp [mapLevels]

lemma mapLevels_mapLevels (f g : Level → Level) (m : Term) : (m.mapLevels f).mapLevels g = m.mapLevels (g ∘ f) := by
  induction m with
  | const c ls | ctor t i c ls => rw [mapLevels, mapLevels, mapLevels, map_map]
  | app h a ihh iha => rw [mapLevels, mapLevels, mapLevels, ihh, iha]
  | lam x t b iht ihb | pi x _ t b iht ihb => rw [mapLevels, mapLevels, mapLevels, iht, ihb]
  | _ => rfl

lemma mapLevels_congr {g : Level → Level} (hm : m.In S k) (hlevel : ∀ l, S.level l → f l = g l)
    (hconst : ∀ c ls, S.const c ls → ∀ l ∈ ls, f l = g l) (hctor : ∀ t i ls, S.ctor t i ls → ∀ l ∈ ls, f l = g l) :
    m.mapLevels f = m.mapLevels g := by
  induction m generalizing k with
  | sort l => rw [mapLevels, mapLevels, hlevel l hm]
  | const c ls => rw [mapLevels, mapLevels, map_congr_left (hconst c ls hm)]
  | ctor t i c ls => rw [mapLevels, mapLevels, map_congr_left (hctor t i ls hm)]
  | app h a ihh iha => rw [mapLevels, mapLevels, ihh hm.1, iha hm.2]
  | lam x t b iht ihb | pi x _ t b iht ihb => rw [mapLevels, mapLevels, iht hm.1, ihb hm.2]
  | _ => rfl

/-- Parameters are replaced in every level, also if there are none. -/
lemma instantiateLevelParams_eq_mapLevels (params : List Name) (levels : List Level) (m : Term) :
    m.instantiateLevelParams params levels = m.mapLevels (·.instantiateParams params levels) := by
  unfold instantiateLevelParams
  split
  · rename_i h
    obtain rfl := isEmpty_iff.mp h
    refine (mapLevels_eq_self (fun l => ?_) m).symm
    induction l with
    | succ l ih => rw [Level.instantiateParams, Level.subst, ← Level.instantiateParams, ih]
    | max a b iha ihb | imax a b iha ihb =>
      rw [Level.instantiateParams, Level.subst, ← Level.instantiateParams, ← Level.instantiateParams, iha, ihb]
    | _ => rfl
  · rfl

/-- A map of the levels that a scope admits leads into any scope that admits the mapped levels. -/
lemma In.mapLevels (hm : m.In S k) (hfree : ∀ x, S.free x → S'.free x) (hhole : ∀ h, S.hole h → S'.hole h)
    (hlevel : ∀ l, S.level l → S'.level (f l)) (hconst : ∀ c ls, S.const c ls → S'.const c (ls.map f))
    (hctor : ∀ t i ls, S.ctor t i ls → S'.ctor t i (ls.map f)) : (m.mapLevels f).In S' k := by
  induction m generalizing k with
  | var i => exact hm
  | free x => exact hfree x hm
  | sort l => exact hlevel l hm
  | const c ls => exact hconst c ls hm
  | ctor t i c ls => exact hctor t i ls hm
  | hole h d => exact hhole h hm
  | app g a ihg iha => exact ⟨ihg hm.1, iha hm.2⟩
  | lam x t b iht ihb | pi x _ t b iht ihb => exact ⟨iht hm.1, ihb hm.2⟩

lemma In.mapLevels_free_hole (hm : m.In S k) (f : Level → Level) :
    (m.mapLevels f).In { free := S.free, hole := S.hole } k :=
  hm.mapLevels (fun _ h => h) (fun _ h => h) (fun _ _ => trivial) (fun _ _ _ => trivial) fun _ _ _ _ => trivial

lemma In.mapLevels_free (hm : m.In S k) (f : Level → Level) : (m.mapLevels f).In { free := S.free } k :=
  hm.mapLevels (fun _ h => h) (fun _ _ => trivial) (fun _ _ => trivial) (fun _ _ _ => trivial) fun _ _ _ _ => trivial

end Term

end ProofAssistant
