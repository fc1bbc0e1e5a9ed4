import ProofAssistant.Proofs.Judgement
import ProofAssistant.Proofs.LevelNormalForm

/-!
# Settling holes

A settling gives a closed term for every hole and a level for every universe metavariable, and `Term.settle` puts
them in. Nothing is contracted, so settling passes replacements (`Term.settle_replace`) and one settling after
another is a settling again (`Term.settle_settle`).
-/

namespace ProofAssistant

open List

variable {m : Term} {k : Nat} {ps : List Name} {S : Scope}

open InductiveSpec

/-- A closed term for every hole, and a level for every universe metavariable, by number. -/
structure Settling where
  hole : Id → Bool → Term
  level : Nat → Level
  closed : ∀ h d, (hole h d).In noFree 0

/-! ## Levels -/

namespace Level

/-- Puts levels for the metavariables. -/
def settle (σ : Settling) (l : Level) : Level :=
  l.subst .param fun u => σ.level u.number

lemma value_settle (σ : Settling) (v : Valuation) (l : Level) :
    (l.settle σ).value v = l.value { v with mvar := fun n => (σ.level n).value v } :=
  value_subst v _ _ _ l (fun _ => rfl) (fun _ => rfl)

lemma Same.settle {a b : Level} (h : Same a b) (σ : Settling) : Same (a.settle σ) (b.settle σ) := by
  intro v
  rw [value_settle, value_settle, h]

lemma Admitted.settle_instantiateParams {l : Level} (hl : l.Admitted ps) {ls : List Level}
    (hlen : ps.length = ls.length) (σ : Settling) :
    (l.instantiateParams ps ls).settle σ = l.instantiateParams ps (ls.map (·.settle σ)) := by
  rw [settle, Level.instantiateParams, subst_subst]
  exact hl.subst_congr fun p hp => (lookupParam_map hlen hp (·.settle σ)).symm

end Level

/-! ## Terms -/

namespace Term

/-- Puts closed terms for the holes, and levels for the metavariables. -/
def settle (σ : Settling) : Term → Term
  | .var i => .var i
  | .sort l => .sort (l.settle σ)
  | .const c ls => .const c (ls.map (·.settle σ))
  | .ctor t i c ls => .ctor t i c (ls.map (·.settle σ))
  | .app f a => .app (f.settle σ) (a.settle σ)
  | .lam x t b => .lam x (t.settle σ) (b.settle σ)
  | .pi x i t b => .pi x i (t.settle σ) (b.settle σ)
  | .free x => .free x
  | .hole h d => σ.hole h d

lemma In.settle (hm : m.In S k) (σ : Settling) : (m.settle σ).In { free := S.free } k := by
  induction m generalizing k with
  | var i => exact hm
  | free x => exact hm
  | app f a ihf iha => exact ⟨ihf hm.1, iha hm.2⟩
  | lam x t b iht ihb | pi x _ t b iht ihb => exact ⟨iht hm.1, ihb hm.2⟩
  | hole h d =>
    have hle : noFree.Le { free := S.free } := { free := fun _ hx => hx.elim }
    exact (σ.closed h d).mono hle (Nat.zero_le k)
  | _ => trivial

@[simp] lemma settle_apply (σ : Settling) (m : Term) (as : List Term) :
    (m.apply as).settle σ = (m.settle σ).apply (as.map (·.settle σ)) :=
  map_apply (fun _ _ => rfl) m as

lemma settle_rename (σ : Settling) (ξ : Nat → Nat) (m : Term) : (m.rename ξ).settle σ = (m.settle σ).rename ξ := by
  induction m generalizing ξ with
  | app f a ihf iha => rw [rename, settle, settle, rename, ihf, iha]
  | lam x t b iht ihb | pi x _ t b iht ihb => rw [rename, settle, settle, rename, iht, ihb]
  | hole h d => exact (Env.rename_eq_self_of_in (σ.closed h d) ξ).symm
  | _ => rfl

end Term

/-- Settles what a replacement puts in. -/
def Replacement.settle (σ : Settling) (s : Replacement) : Replacement :=
  ⟨fun i => (s.var i).settle σ, fun x => (s.free x).settle σ⟩

namespace Term

lemma up_settle (σ : Settling) (s : Replacement) : (s.settle σ).up = s.up.settle σ := by
  ext i
  · cases i with
    | zero => rfl
    | succ i => exact (settle_rename σ _ (s.var i)).symm
  · exact (settle_rename σ _ (s.free _)).symm

lemma settle_replace (σ : Settling) (s : Replacement) (m : Term) :
    (m.replace s).settle σ = (m.settle σ).replace (s.settle σ) := by
  induction m generalizing s with
  | app f a ihf iha => rw [replace, settle, settle, replace, ihf, iha]
  | lam x t b iht ihb | pi x _ t b iht ihb => rw [replace, settle, settle, replace, iht, ihb, up_settle]
  | hole h d => exact (Env.replace_eq_self_of_closed (σ.closed h d) _).symm
  | _ => rfl

lemma settle_instantiate (σ : Settling) (b a : Term) :
    (b.instantiate a).settle σ = (b.settle σ).instantiate (a.settle σ) := by
  rw [instantiate_eq_replace, instantiate_eq_replace, settle_replace]
  congr 1
  ext i
  · cases i <;> rfl
  · rfl

lemma settle_eq_mapLevels {env : Env} {P : Id → Prop}
    (hm : m.In (env.scope ps P) k) (f : Level → Level) (σ : Settling) :
    (m.mapLevels f).settle σ = m.mapLevels fun l => (f l).settle σ := by
  induction m generalizing k with
  | app f a ihf iha => rw [mapLevels, mapLevels, settle, ihf hm.1, iha hm.2]
  | lam x t b iht ihb | pi x _ t b iht ihb => rw [mapLevels, mapLevels, settle, iht hm.1, ihb hm.2]
  | hole h d => exact hm.elim
  | const c ls | ctor t i c ls => rw [mapLevels, settle, map_map]; rfl
  | _ => rfl

end Term

/-- One settling after another. -/
def Settling.comp (σ τ : Settling) : Settling where
  hole h d := (σ.hole h d).settle τ
  level n := (σ.level n).settle τ
  closed h d := (σ.closed h d).settle τ

lemma Level.settle_settle (σ τ : Settling) (l : Level) : (l.settle σ).settle τ = l.settle (σ.comp τ) := by
  rw [settle, settle, subst_subst]
  rfl

lemma Term.settle_settle (σ τ : Settling) (m : Term) : (m.settle σ).settle τ = m.settle (σ.comp τ) := by
  have hls : ∀ ls : List Level, (ls.map (·.settle σ)).map (·.settle τ) = ls.map (·.settle (σ.comp τ)) := by
    intro ls
    rw [map_map]
    exact map_congr_left fun l _ => l.settle_settle σ τ
  induction m with
  | sort l => exact congrArg Term.sort (l.settle_settle σ τ)
  | const c ls => exact congrArg (Term.const c) (hls ls)
  | ctor t i c ls => exact congrArg (Term.ctor t i c) (hls ls)
  | app f a ihf iha => rw [settle, settle, settle, ihf, iha]
  | lam x t b iht ihb | pi x _ t b iht ihb => rw [settle, settle, settle, iht, ihb]
  | _ => rfl

/-! ## Convertibility -/

namespace Env

variable {env : Env} {σ : Settling}

lemma Contracts.settle (henv : env.Scoped) {m' : Term} (h : env.Contracts m m') (σ : Settling) :
    env.Contracts (m.settle σ) (m'.settle σ) := by
  cases h with
  | beta x t b a =>
    rw [Term.settle_instantiate]
    exact .beta x _ _ _
  | @delta c ls d value height hget hkind hlen =>
    have hvalue : value ∈ d.terms := by simp [Decl.terms, hkind]
    have hscope := henv.terms d (mem_of_find?_eq_some hget) value hvalue
    have hsettle : (value.instantiateLevelParams d.levelParams ls).settle σ =
        value.instantiateLevelParams d.levelParams (ls.map (·.settle σ)) := by
      rw [Term.instantiateLevelParams_eq_mapLevels, Term.instantiateLevelParams_eq_mapLevels,
        Term.settle_eq_mapLevels hscope]
      exact mapLevels_congr_of_in hscope fun l hl => hl.settle_instantiateParams hlen σ
    rw [hsettle]
    exact .delta hget hkind (by simpa using hlen)
  | iota hrec hk hargs hparams hfields hminor =>
    simp only [Term.settle, Term.settle_apply, map_append, Constructor.map_calls (g := (·.settle σ)) fun _ _ => rfl]
    exact .iota hrec hk (by simpa using hargs) (by simpa using hparams) (by simpa using hfields)
      (by simp [hminor])

lemma forall₂_same_settle {ls ls' : List Level} (h : List.Forall₂ Level.Same ls ls') (σ : Settling) :
    List.Forall₂ Level.Same (ls.map (·.settle σ)) (ls'.map (·.settle σ)) :=
  rel_map (fun _ _ hl => hl.settle σ) h

/-- Convertible terms stay so when holes are settled, whether these are deferred or not. -/
lemma Conv.settle (henv : env.Scoped) (hσ : ∀ h d d', env.Conv (σ.hole h d) (σ.hole h d')) {m' : Term}
    (h : env.Conv m m') : env.Conv (m.settle σ) (m'.settle σ) := by
  induction h with
  | refl m => exact .refl _
  | symm _ ih => exact ih.symm
  | trans _ _ ih ih' => exact ih.trans ih'
  | contract h => exact .contract (h.settle henv σ)
  | eta x t f =>
    simp only [Term.settle, Term.shift, Term.settle_rename]
    exact .eta x _ _
  | sort h => exact .sort (h.settle σ)
  | const h => exact .const (forall₂_same_settle h σ)
  | ctor h => exact .ctor (forall₂_same_settle h σ)
  | hole h d d' => exact hσ h d d'
  | app _ _ ihf iha => exact .app ihf iha
  | lam _ _ iht ihb => exact .lam iht ihb
  | pi _ _ iht ihb => exact .pi iht ihb

/-- Settlings that agree on the levels of a term, and are convertible on its holes. -/
lemma Conv.settle_congr (hm : m.In S k) {σ τ : Settling}
    (hhole : ∀ h d, S.hole h → env.Conv (σ.hole h d) (τ.hole h d)) (hlevel : ∀ l, S.level l → l.settle σ = l.settle τ)
    (hconst : ∀ c ls, S.const c ls → ∀ l ∈ ls, l.settle σ = l.settle τ)
    (hctor : ∀ t i ls, S.ctor t i ls → ∀ l ∈ ls, l.settle σ = l.settle τ) : env.Conv (m.settle σ) (m.settle τ) := by
  induction m generalizing k with
  | sort l => rw [Term.settle, hlevel l hm]; exact .refl _
  | const c ls => rw [Term.settle, Term.settle, map_congr_left (hconst c ls hm)]; exact .refl _
  | ctor t i c ls => rw [Term.settle, map_congr_left (hctor t i ls hm)]; exact .refl _
  | hole h d => exact hhole h d hm
  | app f a ihf iha => exact .app (ihf hm.1) (iha hm.2)
  | lam x t b iht ihb => exact .lam (iht hm.1) (ihb hm.2)
  | pi x i t b iht ihb => exact .pi (iht hm.1) (ihb hm.2)
  | _ => exact .refl _

end Env

end ProofAssistant
