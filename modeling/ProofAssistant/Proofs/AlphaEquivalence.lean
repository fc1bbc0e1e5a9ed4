import Mathlib.Data.List.Forall2
import Mathlib.Data.Option.Basic
import ProofAssistant.Proofs.Relabelling

/-!
# Terms that are written alike

Reduction does not see what terms that are alike differ in: it ends on the one term exactly if it does on the other,
with results that are alike again (`Term.Alike.whnfCore`).
-/

namespace ProofAssistant

open Option List

variable {m m' : Term} {as as' : List Term}

namespace Term

namespace Alike

variable {a b : Term}

/-! ## Operations on terms -/

lemma rename (h : a.Alike b) (ξ : Nat → Nat) : (a.rename ξ).Alike (b.rename ξ) := by
  induction h generalizing ξ with
  | app _ _ ihf iha => exact .app (ihf ξ) (iha ξ)
  | lam _ _ iht ihb => exact .lam (iht ξ) (ihb _)
  | pi _ _ iht ihb => exact .pi (iht ξ) (ihb _)
  | _ => constructor

lemma replace (h : a.Alike b) {s s' : Replacement} (hvar : ∀ i, (s.var i).Alike (s'.var i))
    (hfree : ∀ x, (s.free x).Alike (s'.free x)) : (a.replace s).Alike (b.replace s') := by
  induction h generalizing s s' with
  | var i => exact hvar i
  | free x => exact hfree x
  | app _ _ ihf iha => exact .app (ihf hvar hfree) (iha hvar hfree)
  | lam _ _ iht ihb | pi _ _ iht ihb =>
    have hup : ∀ i, (s.up.var i).Alike (s'.up.var i) := by
      intro i
      cases i with
      | zero => exact .var 0
      | succ i => exact (hvar i).rename _
    constructor
    · exact iht hvar hfree
    · exact ihb hup fun x => (hfree x).rename _
  | _ => constructor

lemma instantiate {b' a' : Term} (hb : b.Alike b') (ha : a.Alike a') :
    (b.instantiate a).Alike (b'.instantiate a') := by
  rw [instantiate_eq_replace, instantiate_eq_replace]
  refine hb.replace (fun i => ?_) .free
  cases i with
  | zero => exact ha
  | succ i => exact .var i

lemma apply (h : m.Alike m') (has : List.Forall₂ Alike as as') : (m.apply as).Alike (m'.apply as') := by
  induction has generalizing m m' with
  | nil => exact h
  | cons ha _ ih => exact ih (.app h ha)

lemma head (h : a.Alike b) : a.head.Alike b.head := by
  induction h with
  | app _ _ ihf _ => exact ihf
  | lam ht hb => exact .lam ht hb
  | pi ht hb => exact .pi ht hb
  | _ => constructor

lemma args (h : a.Alike b) : List.Forall₂ Alike a.args b.args := by
  induction h with
  | app _ ha ihf _ =>
    rw [args_app, args_app]
    exact rel_append ihf (.cons ha .nil)
  | _ => exact .nil

lemma isApp (h : a.Alike b) : a.isApp = b.isApp := by
  cases h <;> rfl

lemma beta (h : m.Alike m') (has : List.Forall₂ Alike as as') : (m.beta as).Alike (m'.beta as') := by
  induction has generalizing m m' with
  | nil => cases h <;> simp only [Term.beta] <;> constructor <;> assumption
  | @cons a a' as as' ha has ih =>
    have hargs : List.Forall₂ Alike (a :: as) (a' :: as') := .cons ha has
    cases h with
    | lam ht hb => exact ih (hb.instantiate ha)
    | pi ht hb => exact (Alike.pi ht hb).apply hargs
    | app hf hb => exact (Alike.app hf hb).apply hargs
    | _ => exact Alike.apply (by constructor) hargs

lemma calls (k : Constructor) {r r' : Term} (hr : r.Alike r') {fields fields' : List Term}
    (hfields : List.Forall₂ Alike fields fields') : List.Forall₂ Alike (k.calls r fields) (k.calls r' fields') := by
  rw [Constructor.calls, Constructor.calls]
  generalize k.recursive = flags
  induction hfields generalizing flags with
  | nil => exact .nil
  | cons hf _ ih =>
    cases flags with
    | nil => exact .nil
    | cons flag flags =>
      cases flag with
      | false => exact ih flags
      | true => exact .cons (.app hr hf) (ih flags)

end Alike

end Term

/-! ## Reduction -/

namespace Env

variable {m : Term}

open Term

lemma rel_cases {o o' : Option Term} (h : Option.Rel Alike o o') :
    (∃ m m', o = some m ∧ o' = some m' ∧ m.Alike m') ∨ o = none ∧ o' = none := by
  cases h with
  | some h => exact .inl ⟨_, _, rfl, rfl, h⟩
  | none => exact .inr ⟨rfl, rfl⟩

lemma rel_getElem? (h : List.Forall₂ Alike as as') (i : Nat) : Option.Rel Alike as[i]? as'[i]? := by
  induction h generalizing i with
  | nil => exact .none
  | cons ha _ ih =>
    cases i with
    | zero => exact .some ha
    | succ i => exact ih i

lemma iota?_eq_none {t : InductiveType} {major : Term} (h : ∀ family i n ls, major.head ≠ .ctor family i n ls) :
    iota? t m major = none := by
  cases hhead : major.head with
  | ctor family i n ls => exact absurd hhead (h family i n ls)
  | _ => simp only [iota?, hhead]

lemma iota?_alike (t : InductiveType) {major major' : Term} (hm : m.Alike m') (hmajor : major.Alike major') :
    Option.Rel Alike (iota? t m major) (iota? t m' major') := by
  have hhead := hmajor.head
  cases hctor : major.head with
  | ctor family i n ls =>
    rw [hctor] at hhead
    cases hctor' : major'.head with
    | ctor family' i' n' ls' =>
      rw [hctor'] at hhead
      cases hhead
      cases hk : t.ctors[i]? with
      | none =>
        simp only [iota?, hctor, hctor', hk]
        exact .none
      | some k =>
        rw [iota?_of_ctor hctor hk, iota?_of_ctor hctor' hk, hmajor.args.length_eq]
        split
        · have hfields := forall₂_drop t.numParams hmajor.args
          have hrecursor := hm.head.apply (forall₂_take (majorIndex t) hm.args)
          have hargs := rel_append (rel_append hfields (Alike.calls k hrecursor hfields))
            (forall₂_drop (majorIndex t + 1) hm.args)
          rcases rel_cases (rel_getElem? hm.args (t.numParams + 1 + i)) with
            ⟨minor, minor', hget, hget', hminor⟩ | ⟨hget, hget'⟩
          · rw [hget, hget']
            exact .some (hminor.beta hargs)
          · rw [hget, hget']
            exact .none
        · exact .none
    | _ =>
      rw [hctor'] at hhead
      cases hhead
  | _ =>
    have hnone : iota? t m major = none := by
      refine iota?_eq_none fun _ _ _ _ h => ?_
      cases hctor.symm.trans h
    have hnone' : iota? t m' major' = none := by
      refine iota?_eq_none fun _ _ _ _ h => ?_
      rw [hctor, h] at hhead
      cases hhead
    rw [hnone, hnone']
    exact .none

lemma unfoldHead?_alike (env : Env) (hm : m.Alike m') :
    Option.Rel Alike (env.unfoldHead? m) (env.unfoldHead? m') := by
  have hhead := hm.head
  rw [unfoldHead?, unfoldHead?]
  generalize m.head = head, m'.head = head' at hhead
  cases hhead with
  | const c ls =>
    simp only
    cases env.unfoldConst? c ls with
    | none => exact .none
    | some v => exact .some ((Alike.refl v).beta hm.args)
  | _ => exact .none

private lemma whnf_alike_of_fuel (env : Env) (fuel : Nat) :
    (∀ m m', Alike m m' → Option.Rel Alike (env.whnfCore fuel m) (env.whnfCore fuel m')) ∧
    (∀ m m', Alike m m' → Option.Rel Alike (env.whnf fuel m) (env.whnf fuel m')) := by
  induction fuel with
  | zero => exact ⟨fun _ _ _ => .none, fun _ _ _ => .none⟩
  | succ fuel ih =>
    obtain ⟨ihCore, ihWhnf⟩ := ih
    refine ⟨fun m m' hm => ?_, fun m m' hm => ?_⟩
    · have hhead := hm.head
      rw [whnfCore, whnfCore, hm.isApp]
      generalize m.head = head, m'.head = head' at hhead
      cases hhead with
      | lam ht hb =>
        simp only
        split
        · exact ihCore _ _ ((Alike.lam ht hb).beta hm.args)
        · exact .some hm
      | const c ls =>
        simp only
        cases env.recursorOf? c with
        | none => exact .some hm
        | some t =>
          simp only
          rcases rel_cases (rel_getElem? hm.args (majorIndex t)) with
            ⟨major, major', hget, hget', hmajor⟩ | ⟨hget, hget'⟩
          · simp only [hget, hget', bind_eq_bind]
            rcases rel_cases (ihWhnf _ _ hmajor) with ⟨_, _, hwhnf, hwhnf', hrel⟩ | ⟨hwhnf, hwhnf'⟩
            · simp only [hwhnf, hwhnf', bind_some]
              rcases rel_cases (iota?_alike t hm hrel) with ⟨_, _, hiota, hiota', hrel⟩ | ⟨hiota, hiota'⟩
              · simp only [hiota, hiota']
                exact ihCore _ _ hrel
              · simp only [hiota, hiota']
                exact .some hm
            · simp only [hwhnf, hwhnf', bind_none]
              exact .none
          · simp only [hget, hget']
            exact .some hm
      | _ => exact .some hm
    · rw [whnf, whnf]
      simp only [bind_eq_bind]
      rcases rel_cases (ihCore m m' hm) with ⟨_, _, hcore, hcore', hrel⟩ | ⟨hcore, hcore'⟩
      · simp only [hcore, hcore', bind_some]
        rcases rel_cases (env.unfoldHead?_alike hrel) with ⟨_, _, hunfold, hunfold', hrel'⟩ | ⟨hunfold, hunfold'⟩
        · simp only [hunfold, hunfold']
          exact ihWhnf _ _ hrel'
        · simp only [hunfold, hunfold']
          exact .some hrel
      · simp only [hcore, hcore', bind_none]
        exact .none

end Env

lemma Term.Alike.whnfCore (h : m.Alike m') (env : Env) (fuel : Nat) :
    Option.Rel Alike (env.whnfCore fuel m) (env.whnfCore fuel m') :=
  (Env.whnf_alike_of_fuel env fuel).1 m m' h

end ProofAssistant
