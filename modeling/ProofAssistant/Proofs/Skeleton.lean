import Mathlib.Data.List.Induction
import ProofAssistant.Proofs.LevelValue
import ProofAssistant.Proofs.Steps

/-!
# Skeletons of terms

The skeleton of a term forgets what does not matter for conversion, such as the types and the names of abstracted
variables. Hypotheses, holes, constants, constructors and sorts become atoms. Reduction of terms with η is not
confluent, since the types of abstracted variables are in the way; that of their skeletons is.
-/

namespace ProofAssistant

variable {k : Nat}

/-- What stands at a leaf of a skeleton. -/
inductive Atom where
  | sort (v : Level.Valuation → Nat)
  | const (c : Name) (vs : List (Level.Valuation → Nat))
  | ctor (family : Name) (index : Nat) (vs : List (Level.Valuation → Nat))
  | free (x : Id)
  | hole (h : Id)

/-- A term without the types of abstracted variables. -/
inductive Skel where
  | var (index : Nat)
  | atom (a : Atom)
  | app (f a : Skel)
  | lam (b : Skel)
  | pi (t b : Skel)

namespace Skel

variable {s u : Skel}

/-- Renames the loose indices. -/
def rename (ξ : Nat → Nat) : Skel → Skel
  | .var i => .var (ξ i)
  | .atom a => .atom a
  | .app f a => .app (f.rename ξ) (a.rename ξ)
  | .lam b => .lam (b.rename (upRenaming ξ))
  | .pi t b => .pi (t.rename ξ) (b.rename (upRenaming ξ))

/-- Lifting by one, as at a binder. -/
def shift (s : Skel) : Skel :=
  s.rename (· + 1)

/-- A substitution under a binder. -/
def up (σ : Nat → Skel) : Nat → Skel
  | 0 => .var 0
  | i + 1 => (σ i).shift

/-- Puts skeletons for the loose indices. -/
def subst (σ : Nat → Skel) : Skel → Skel
  | .var i => σ i
  | .atom a => .atom a
  | .app f a => .app (f.subst σ) (a.subst σ)
  | .lam b => .lam (b.subst (up σ))
  | .pi t b => .pi (t.subst σ) (b.subst (up σ))

/-- Puts a skeleton for the index zero; the other indices drop by one. -/
def single (a : Skel) : Nat → Skel
  | 0 => a
  | i + 1 => .var i

/-- The body of a binder with a skeleton for its variable. -/
def inst (b a : Skel) : Skel :=
  b.subst (single a)

/-- A skeleton applied to some arguments. -/
def apply (s : Skel) (as : List Skel) : Skel :=
  as.foldl .app s

@[simp] lemma apply_nil (s : Skel) : s.apply [] = s := rfl

@[simp] lemma apply_cons (s a : Skel) (as : List Skel) : s.apply (a :: as) = (s.app a).apply as := rfl

lemma apply_append (s : Skel) (as bs : List Skel) : s.apply (as ++ bs) = (s.apply as).apply bs :=
  List.foldl_append

lemma apply_concat (s : Skel) (as : List Skel) (a : Skel) : s.apply (as ++ [a]) = (s.apply as).app a :=
  apply_append s as [a]

/-! ## Renaming and substitution -/

lemma rename_rename (ξ ζ : Nat → Nat) (s : Skel) : (s.rename ξ).rename ζ = s.rename (ζ ∘ ξ) := by
  induction s generalizing ξ ζ with
  | app f a ihf iha => rw [rename, rename, rename, ihf, iha]
  | lam b ih => rw [rename, rename, rename, ih, Term.upRenaming_comp]
  | pi t b iht ihb => rw [rename, rename, rename, iht, ihb, Term.upRenaming_comp]
  | _ => rfl

lemma shift_rename (ξ : Nat → Nat) (s : Skel) : s.shift.rename (upRenaming ξ) = (s.rename ξ).shift := by
  rw [shift, shift, rename_rename, rename_rename]
  rfl

lemma subst_rename (ξ : Nat → Nat) (σ : Nat → Skel) (s : Skel) : (s.rename ξ).subst σ = s.subst (σ ∘ ξ) := by
  have hup : ∀ (ξ : Nat → Nat) (σ : Nat → Skel), up σ ∘ upRenaming ξ = up (σ ∘ ξ) := by
    intro ξ σ
    funext i
    cases i <;> rfl
  induction s generalizing ξ σ with
  | app f a ihf iha => rw [rename, subst, subst, ihf, iha]
  | lam b ih => rw [rename, subst, subst, ih, hup]
  | pi t b iht ihb => rw [rename, subst, subst, iht, ihb, hup]
  | _ => rfl

lemma rename_subst (ξ : Nat → Nat) (σ : Nat → Skel) (s : Skel) :
    (s.subst σ).rename ξ = s.subst fun i => (σ i).rename ξ := by
  have hup : ∀ (ξ : Nat → Nat) (σ : Nat → Skel),
      (fun i => (up σ i).rename (upRenaming ξ)) = up fun i => (σ i).rename ξ := by
    intro ξ σ
    funext i
    cases i with
    | zero => rfl
    | succ i => exact shift_rename ξ (σ i)
  induction s generalizing ξ σ with
  | app f a ihf iha => rw [subst, subst, rename, ihf, iha]
  | lam b ih => rw [subst, subst, rename, ih, hup]
  | pi t b iht ihb => rw [subst, subst, rename, iht, ihb, hup]
  | _ => rfl

lemma shift_subst (σ : Nat → Skel) (s : Skel) : s.shift.subst (up σ) = (s.subst σ).shift := by
  rw [shift, shift, subst_rename, rename_subst]
  rfl

lemma subst_subst (σ τ : Nat → Skel) (s : Skel) : (s.subst σ).subst τ = s.subst fun i => (σ i).subst τ := by
  have hup : ∀ σ τ : Nat → Skel, (fun i => (up σ i).subst (up τ)) = up fun i => (σ i).subst τ := by
    intro σ τ
    funext i
    cases i with
    | zero => rfl
    | succ i => exact shift_subst τ (σ i)
  induction s generalizing σ τ with
  | app f a ihf iha => rw [subst, subst, subst, ihf, iha]
  | lam b ih => rw [subst, subst, subst, ih, hup]
  | pi t b iht ihb => rw [subst, subst, subst, iht, ihb, hup]
  | _ => rfl

@[simp] lemma subst_var (s : Skel) : s.subst .var = s := by
  have hup : up .var = .var := by
    funext i
    cases i <;> rfl
  induction s with
  | app f a ihf iha => rw [subst, ihf, iha]
  | lam b ih => rw [subst, hup, ih]
  | pi t b iht ihb => rw [subst, hup, iht, ihb]
  | _ => rfl

lemma rename_eq_subst (ξ : Nat → Nat) (s : Skel) : s.rename ξ = s.subst fun i => .var (ξ i) := by
  rw [← subst_var (s.rename ξ), subst_rename]
  rfl

@[simp] lemma inst_shift (s a : Skel) : s.shift.inst a = s := by
  rw [inst, shift, subst_rename]
  exact subst_var s

lemma subst_inst (σ : Nat → Skel) (b a : Skel) : (b.inst a).subst σ = (b.subst (up σ)).inst (a.subst σ) := by
  rw [inst, inst, subst_subst, subst_subst]
  congr 1
  funext i
  cases i with
  | zero => rfl
  | succ i => exact (inst_shift (σ i) (a.subst σ)).symm

lemma rename_inst (ξ : Nat → Nat) (b a : Skel) :
    (b.inst a).rename ξ = (b.rename (upRenaming ξ)).inst (a.rename ξ) := by
  have hup : up (fun i => .var (ξ i)) = fun i => .var (upRenaming ξ i) := by
    funext i
    cases i <;> rfl
  rw [rename_eq_subst, subst_inst, hup, ← rename_eq_subst, ← rename_eq_subst]

lemma inst_var_zero (b : Skel) : (b.rename (upRenaming (· + 1))).inst (.var 0) = b := by
  rw [inst, subst_rename]
  have : single (.var 0) ∘ upRenaming (· + 1) = .var := by
    funext i
    cases i <;> rfl
  rw [this, subst_var]

@[simp] lemma rename_apply (ξ : Nat → Nat) (s : Skel) (as : List Skel) :
    (s.apply as).rename ξ = (s.rename ξ).apply (as.map (·.rename ξ)) := by
  induction as generalizing s with
  | nil => rfl
  | cons a as ih => rw [apply_cons, ih, rename, List.map_cons, apply_cons]

/-! ### Skeletons that come from a renaming -/

/-- A pullback of renamings is one of skeletons: what two renamings lead to comes from a skeleton
before both. -/
lemma rename_pullback {ξ ζ ξ' ζ' : Nat → Nat} (hpull : ∀ i j, ξ i = ζ j → ∃ k, i = ξ' k ∧ j = ζ' k)
    (h : s.rename ξ = u.rename ζ) : ∃ w : Skel, s = w.rename ξ' ∧ u = w.rename ζ' := by
  have hup : ∀ {ξ ζ ξ' ζ' : Nat → Nat}, (∀ i j, ξ i = ζ j → ∃ k, i = ξ' k ∧ j = ζ' k) →
      ∀ i j, upRenaming ξ i = upRenaming ζ j → ∃ k, i = upRenaming ξ' k ∧ j = upRenaming ζ' k := by
    intro ξ ζ ξ' ζ' hpull i j hij
    cases i with
    | zero =>
      cases j with
      | zero => exact ⟨0, rfl, rfl⟩
      | succ j => simp [upRenaming] at hij
    | succ i =>
      cases j with
      | zero => simp [upRenaming] at hij
      | succ j =>
        obtain ⟨k, rfl, rfl⟩ := hpull i j (by simpa [upRenaming] using hij)
        exact ⟨k + 1, rfl, rfl⟩
  induction s generalizing u ξ ζ ξ' ζ' with
  | var i =>
    cases u <;> simp only [rename, reduceCtorEq, Skel.var.injEq] at h
    obtain ⟨k, rfl, rfl⟩ := hpull i _ h
    exact ⟨.var k, rfl, rfl⟩
  | atom a =>
    cases u <;> simp only [rename, reduceCtorEq, Skel.atom.injEq] at h
    subst h
    exact ⟨.atom a, rfl, rfl⟩
  | app f a ihf iha =>
    cases u <;> simp only [rename, reduceCtorEq, Skel.app.injEq] at h
    obtain ⟨wf, rfl, rfl⟩ := ihf hpull h.1
    obtain ⟨wa, rfl, rfl⟩ := iha hpull h.2
    exact ⟨.app wf wa, rfl, rfl⟩
  | lam b ih =>
    cases u <;> simp only [rename, reduceCtorEq, Skel.lam.injEq] at h
    obtain ⟨w, rfl, rfl⟩ := ih (hup hpull) h
    exact ⟨.lam w, rfl, rfl⟩
  | pi t b iht ihb =>
    cases u <;> simp only [rename, reduceCtorEq, Skel.pi.injEq] at h
    obtain ⟨wt, rfl, rfl⟩ := iht hpull h.1
    obtain ⟨wb, rfl, rfl⟩ := ihb (hup hpull) h.2
    exact ⟨.pi wt wb, rfl, rfl⟩

lemma eq_shift_of_rename_eq {ξ : Nat → Nat} (h : s.rename (upRenaming ξ) = u.shift) :
    ∃ w : Skel, s = w.shift ∧ u = w.rename ξ := by
  refine rename_pullback (fun i j hij => ?_) h
  cases i with
  | zero => simp [upRenaming] at hij
  | succ i => exact ⟨i, rfl, by simpa [upRenaming] using hij.symm⟩

lemma shift_injective (h : s.shift = u.shift) : s = u := by
  have := congrArg (·.inst (.var 0)) h
  simpa using this

/-! ### Skeletons without loose indices -/

/-- The loose indices are below `k`. -/
def Closed : (k : Nat) → Skel → Prop
  | k, .var i => i < k
  | _, .atom _ => True
  | k, .app f a => f.Closed k ∧ a.Closed k
  | k, .lam b => b.Closed (k + 1)
  | k, .pi t b => t.Closed k ∧ b.Closed (k + 1)

lemma Closed.subst_eq (h : s.Closed k) {σ : Nat → Skel} (hσ : ∀ i < k, σ i = .var i) : s.subst σ = s := by
  have hup : ∀ {k : Nat} {σ : Nat → Skel}, (∀ i < k, σ i = .var i) → ∀ i < k + 1, up σ i = .var i := by
    intro k σ hσ i hi
    cases i with
    | zero => rfl
    | succ i => rw [up, hσ i (by omega)]; rfl
  induction s generalizing k σ with
  | var i => exact hσ i h
  | atom a => rfl
  | app f a ihf iha => rw [subst, ihf h.1 hσ, iha h.2 hσ]
  | lam b ih => rw [subst, ih h (hup hσ)]
  | pi t b iht ihb => rw [subst, iht h.1 hσ, ihb h.2 (hup hσ)]

lemma Closed.subst_eq_self (h : s.Closed 0) (σ : Nat → Skel) : s.subst σ = s :=
  h.subst_eq fun i hi => absurd hi (Nat.not_lt_zero i)

lemma Closed.rename_eq_self (h : s.Closed 0) (ξ : Nat → Nat) : s.rename ξ = s := by
  rw [rename_eq_subst, h.subst_eq_self]

end Skel

/-! ## Erasure -/

namespace Term

variable {m : Term}

/-- The skeleton of a term. -/
def erase : Term → Skel
  | .var i => .var i
  | .sort l => .atom (.sort l.meaning)
  | .const c ls => .atom (.const c (ls.map Level.meaning))
  | .ctor t i _ ls => .atom (.ctor t i (ls.map Level.meaning))
  | .app f a => .app f.erase a.erase
  | .lam _ _ b => .lam b.erase
  | .pi _ _ t b => .pi t.erase b.erase
  | .free x => .atom (.free x)
  | .hole h _ => .atom (.hole h)

lemma erase_rename (ξ : Nat → Nat) (m : Term) : (m.rename ξ).erase = m.erase.rename ξ := by
  induction m generalizing ξ with
  | app f a ihf iha => rw [rename, erase, erase, Skel.rename, ihf, iha]
  | lam x t b _ ihb => rw [rename, erase, erase, Skel.rename, ihb]
  | pi x i t b iht ihb => rw [rename, erase, erase, Skel.rename, iht, ihb]
  | _ => rfl

lemma erase_shift (m : Term) : m.shift.erase = m.erase.shift :=
  erase_rename _ m

lemma erase_replace {s : Replacement} (hfree : s.free = .free) (m : Term) :
    (m.replace s).erase = m.erase.subst fun i => (s.var i).erase := by
  have hup : ∀ {s : Replacement}, s.free = .free → s.up.free = .free ∧
      (fun i => (s.up.var i).erase) = Skel.up fun i => (s.var i).erase := by
    intro s hfree
    refine ⟨?_, funext fun i => ?_⟩
    · funext x
      rw [Replacement.up, hfree]
      rfl
    · cases i with
      | zero => rfl
      | succ i => exact erase_shift (s.var i)
  induction m generalizing s with
  | free x => rw [replace, hfree]; rfl
  | app f a ihf iha => rw [replace, erase, erase, Skel.subst, ihf hfree, iha hfree]
  | lam x t b _ ihb =>
    obtain ⟨hfree', heq⟩ := hup hfree
    rw [replace, erase, erase, Skel.subst, ihb hfree', heq]
  | pi x i t b iht ihb =>
    obtain ⟨hfree', heq⟩ := hup hfree
    rw [replace, erase, erase, Skel.subst, iht hfree, ihb hfree', heq]
  | _ => rfl

lemma erase_instantiate (b a : Term) : (b.instantiate a).erase = b.erase.inst a.erase := by
  rw [instantiate_eq_replace, erase_replace rfl]
  congr 1
  funext i
  cases i <;> rfl

@[simp] lemma erase_apply (m : Term) (as : List Term) : (m.apply as).erase = m.erase.apply (as.map erase) := by
  induction as generalizing m with
  | nil => rfl
  | cons a as ih => rw [apply_cons, ih, erase, List.map_cons, Skel.apply_cons]

lemma In.closed_erase {S : Scope} (h : m.In S k) : m.erase.Closed k := by
  induction m generalizing k with
  | var i => exact h
  | app f a ihf iha => exact ⟨ihf h.1, iha h.2⟩
  | lam x t b _ ihb => exact ihb h.2
  | pi x i t b iht ihb => exact ⟨iht h.1, ihb h.2⟩
  | _ => trivial

/-- Maps that lead to levels of the same meaning, for what occurs in a term, give the same skeleton. -/
lemma erase_mapLevels_congr {S : Scope} {f g : Level → Level} (hm : m.In S k)
    (hlevel : ∀ l, S.level l → (f l).Same (g l)) (hconst : ∀ c ls, S.const c ls → ∀ l ∈ ls, (f l).Same (g l))
    (hctor : ∀ t i ls, S.ctor t i ls → ∀ l ∈ ls, (f l).Same (g l)) : (m.mapLevels f).erase = (m.mapLevels g).erase := by
  have hls : ∀ ls : List Level, (∀ l ∈ ls, (f l).Same (g l)) →
      (ls.map f).map Level.meaning = (ls.map g).map Level.meaning := by
    intro ls h
    rw [List.map_map, List.map_map]
    exact List.map_congr_left fun l hl => Level.meaning_eq_iff.mpr (h l hl)
  induction m generalizing k with
  | sort l => exact congrArg (fun v => Skel.atom (.sort v)) (Level.meaning_eq_iff.mpr (hlevel l hm))
  | const c ls => exact congrArg (fun vs => Skel.atom (.const c vs)) (hls ls (hconst c ls hm))
  | ctor t i c ls => exact congrArg (fun vs => Skel.atom (.ctor t i vs)) (hls ls (hctor t i ls hm))
  | app h a ihh iha => rw [mapLevels, mapLevels, erase, erase, ihh hm.1, iha hm.2]
  | lam x t b _ ihb => rw [mapLevels, mapLevels, erase, erase, ihb hm.2]
  | pi x i t b iht ihb => rw [mapLevels, mapLevels, erase, erase, iht hm.1, ihb hm.2]
  | _ => rfl

/-- A term whose skeleton is an application spine is one itself. -/
lemma exists_of_erase_eq_apply {a : Atom} {as : List Skel} (h : m.erase = (Skel.atom a).apply as) :
    ∃ (f : Term) (ms : List Term), m = f.apply ms ∧ f.erase = .atom a ∧ ms.map erase = as := by
  induction as using List.reverseRecOn generalizing m with
  | nil => exact ⟨m, [], rfl, h, rfl⟩
  | append_singleton as b ih =>
    rw [Skel.apply_concat] at h
    cases m <;> simp only [erase, reduceCtorEq, Skel.app.injEq] at h
    obtain ⟨f, ms, rfl, hf, rfl⟩ := ih h.1
    rename_i arg
    exact ⟨f, ms ++ [arg], by rw [apply_append]; rfl, hf, by simp [h.2]⟩

end Term

end ProofAssistant
