import ProofAssistant.Clause.Compile
import ProofAssistant.Proofs.Computation

/-!
# Recursive calls

`Calls.Replaced` says what becomes of a term when recursive calls are replaced: a call on the fixed arguments and a
field is the induction hypothesis of that field. If each induction hypothesis computes as the call it stands for, then
so does the whole term (`Calls.Replaced.computes`).
-/

namespace ProofAssistant

open List Term

variable {S : Scope} {k : Nat}

namespace Term

variable {m : Term}

lemma In.of_containsFree {x : Id} (hm : m.In S k) (hx : m.containsFree x = false) :
    m.In { S with free := fun y => S.free y ∧ y ≠ x } k := by
  refine hm.of_forall_containsFree fun y hy => ⟨hm.free_of_containsFree hy, ?_⟩
  rintro rfl
  simp [hx] at hy

lemma eq_of_alphaEq_free {x : Id} (h : m.alphaEq (.free x)) : m = .free x := by
  cases m with
  | free y => exact congrArg free (by simpa [alphaEq] using h)
  | _ => simp [alphaEq] at h

end Term

lemma bind_eq_ok {ε α β : Type} {x : Except ε α} {f : α → Except ε β} {b : β} :
    x >>= f = .ok b ↔ ∃ a, x = .ok a ∧ f a = .ok b := by
  cases x <;> simp [bind, Except.bind]

namespace Calls

variable {m r : Term} {as : List Term} {args : List (Term × Except Term Term)}

/-- Calls of the function in the first term are replaced by induction hypotheses in the second one. -/
inductive Replaced (c : Calls) : Term → Term → Prop
  | call {x : Id} {h : Term} : c.hypotheses.lookup x = some h →
    Replaced c ((free c.function).apply (c.fixed ++ [.free x])) h
  | other {m : Term} : m.containsFree c.function = false → Replaced c m m
  | app {f f' a a' : Term} : Replaced c f f' → Replaced c a a' → Replaced c (.app f a) (.app f' a')
  | lam {x : Name} {t t' b b' : Term} : Replaced c t t' → Replaced c b b' →
    Replaced c (.lam x t b) (.lam x t' b')
  | pi {x : Name} {i : Bool} {t t' b b' : Term} : Replaced c t t' → Replaced c b b' →
    Replaced c (.pi x i t b) (.pi x i t' b')

variable {c : Calls}

lemma Replaced.apply {m' : Term} (h : c.Replaced m m') {as' : List Term} (has : List.Forall₂ c.Replaced as as') :
    c.Replaced (m.apply as) (m'.apply as') := by
  induction has generalizing m m' with
  | nil => exact h
  | cons ha _ ih => exact ih (h.app ha)

/-! ## What replacing does -/

/-- The arguments that are to be replaced, with what becomes of them. -/
def ArgsReplaced (c : Calls) (args : List (Term × Except Term Term)) : Prop :=
  ∀ p ∈ args, ∀ a, p.2 = .ok a → c.Replaced p.1 a

lemma argsReplaced_nil (c : Calls) : c.ArgsReplaced [] :=
  fun _ hp => absurd hp not_mem_nil

lemma ArgsReplaced.of_mapM (hargs : c.ArgsReplaced args) (h : args.mapM Prod.snd = .ok as) :
    List.Forall₂ c.Replaced (args.map Prod.fst) as := by
  induction args generalizing as with
  | nil =>
    obtain rfl : [] = as := Except.ok.inj h
    exact .nil
  | cons p args ih =>
    obtain ⟨hp, hargs⟩ := forall_mem_cons.mp hargs
    simp only [mapM_cons, bind_eq_ok] at h
    obtain ⟨a, ha, as', has, h⟩ := h
    obtain rfl : a :: as' = as := Except.ok.inj h
    exact .cons (hp a ha) (ih hargs has)

/-- Terms that agree with hypotheses are these. -/
lemma take_of_alphaEq {bs : List Term} (hbs : ∀ b ∈ bs, ∃ x, b = .free x)
    (h : (as.zip bs).all fun (a, b) => a.alphaEq b) (hlen : bs.length ≤ as.length) : as.take bs.length = bs := by
  induction bs generalizing as with
  | nil => rfl
  | cons b bs ih =>
    cases as with
    | nil => simp at hlen
    | cons a as =>
      obtain ⟨⟨x, hb⟩, hbs'⟩ := forall_mem_cons.mp hbs
      subst hb
      simp only [zip_cons_cons, all_cons, Bool.and_eq_true] at h
      rw [length_cons, take_succ_cons, ih hbs' h.2 (by simpa using hlen), eq_of_alphaEq_free h.1]

/-- A call that is allowed is on the fixed arguments and a field. -/
lemma replaced_of_replaceCall (hfixed : ∀ b ∈ c.fixed, ∃ x, b = .free x) (hposition : c.position = c.fixed.length)
    (hargs : c.ArgsReplaced args) (h : c.replaceCall args = .ok r) :
    c.Replaced ((free c.function).apply (args.map Prod.fst)) r := by
  unfold replaceCall at h
  dsimp only at h
  split at h
  · exact nomatch h
  rename_i hall
  split at h
  · rename_i x hx
    split at h
    · rename_i ih hih
      obtain ⟨rest, hrest, h⟩ := bind_eq_ok.mp h
      obtain rfl : ih.apply rest = r := Except.ok.inj h
      obtain ⟨hlt, hget⟩ := List.getElem?_eq_some_iff.mp hx
      have htake : (args.map Prod.fst).take c.position = c.fixed :=
        hposition ▸ take_of_alphaEq hfixed (by simpa using hall) (by omega)
      have hsplit : args.map Prod.fst = c.fixed ++ [.free x] ++ (args.drop (c.position + 1)).map Prod.fst := by
        rw [← htake, ← hget, append_assoc, singleton_append, map_drop, ← drop_eq_getElem_cons hlt, take_append_drop]
      have hdrop : c.ArgsReplaced (args.drop (c.position + 1)) := fun p hp => hargs p (mem_of_mem_drop hp)
      rw [hsplit, apply_append]
      exact (Replaced.call hih).apply (hdrop.of_mapM hrest)
    · exact nomatch h
  · exact nomatch h

/-- What a term becomes, on the arguments as they become. -/
lemma Replaced.of_mapM {m' : Term} (hm : c.Replaced m m') (hargs : c.ArgsReplaced args)
    (h : (return m'.apply (← args.mapM Prod.snd)) = Except.ok r) : c.Replaced (m.apply (args.map Prod.fst)) r := by
  obtain ⟨as, has, h⟩ := bind_eq_ok.mp h
  obtain rfl : m'.apply as = r := Except.ok.inj h
  exact hm.apply (hargs.of_mapM has)

lemma replaced_of_replaceApp (hfixed : ∀ b ∈ c.fixed, ∃ x, b = .free x) (hposition : c.position = c.fixed.length)
    (hargs : c.ArgsReplaced args) (h : c.replaceApp m args = .ok r) : c.Replaced (m.apply (args.map Prod.fst)) r := by
  have hnil := c.argsReplaced_nil
  induction m generalizing args r with
  | app f a ihf iha =>
    have hcons : c.ArgsReplaced ((a, c.replaceApp a []) :: args) :=
      forall_mem_cons.mpr ⟨fun _ ha' => iha hnil ha', hargs⟩
    exact ihf hcons h
  | free x =>
    rw [replaceApp] at h
    split at h
    · rename_i hx
      exact hx ▸ replaced_of_replaceCall hfixed hposition hargs h
    · rename_i hx
      exact (Replaced.other (by simp [containsFree, hx])).of_mapM hargs h
  | lam x t b iht ihb =>
    rw [replaceApp, bind_eq_ok] at h
    obtain ⟨t', ht, h⟩ := h
    obtain ⟨b', hb, h⟩ := bind_eq_ok.mp h
    exact (Replaced.lam (iht hnil ht) (ihb hnil hb)).of_mapM hargs h
  | pi x i t b iht ihb =>
    rw [replaceApp, bind_eq_ok] at h
    obtain ⟨t', ht, h⟩ := h
    obtain ⟨b', hb, h⟩ := bind_eq_ok.mp h
    exact (Replaced.pi (iht hnil ht) (ihb hnil hb)).of_mapM hargs h
  | _ => exact (Replaced.other rfl).of_mapM hargs h

lemma replaced_of_replace (hfixed : ∀ b ∈ c.fixed, ∃ x, b = .free x) (hposition : c.position = c.fixed.length)
    (h : c.replace m = .ok r) : c.Replaced m r :=
  replaced_of_replaceApp hfixed hposition c.argsReplaced_nil h

/-! ## Scope and computation -/

/-- The function does not occur after its calls have been replaced. -/
lemma Replaced.in_scope {P : Id → Prop} (h : c.Replaced m r) (hm : m.In S k)
    (hP : ∀ x, S.free x → x ≠ c.function → P x)
    (hhypotheses : ∀ x h, c.hypotheses.lookup x = some h → h.In { S with free := P } 0) :
    r.In { S with free := P } k := by
  induction h generalizing k with
  | call hx => exact (hhypotheses _ _ hx).le (Nat.zero_le k)
  | other hother =>
    refine (hm.of_containsFree hother).widen { free := fun x hx => ?_ }
    exact hP x hx.1 hx.2
  | app _ _ ihf iha => exact ⟨ihf hm.1, iha hm.2⟩
  | lam _ _ iht ihb | pi _ _ iht ihb => exact ⟨iht hm.1, ihb hm.2⟩

/-- If every induction hypothesis, as it is given by `s`, computes as the call it stands for, as it is given
by `s'`, then so does every term. -/
lemma Replaced.computes {env : Env} {f : Name} {s s' : Replacement} (hs : s.up = s) (hs' : s'.up = s')
    (hcall : ∀ x h, c.hypotheses.lookup x = some h →
      env.Computes f (h.replace s) (((Term.free c.function).apply (c.fixed ++ [.free x])).replace s'))
    (hvar : ∀ i, s.var i = s'.var i) (hfree : ∀ x, S.free x → x ≠ c.function → s.free x = s'.free x)
    (h : c.Replaced m r) (hm : m.In S k) : env.Computes f (r.replace s) (m.replace s') := by
  induction h generalizing k with
  | call hx => exact hcall _ _ hx
  | other hother =>
    rw [Term.replace_congr (hm.of_containsFree hother) (fun i _ => hvar i) fun x hx => hfree x hx.1 hx.2]
    exact .refl _
  | app _ _ ihf iha => exact .app (ihf hm.1) (iha hm.2)
  | lam _ _ iht ihb =>
    rw [Term.replace, Term.replace, hs, hs']
    exact .lam (iht hm.1) (ihb hm.2)
  | pi _ _ iht ihb =>
    rw [Term.replace, Term.replace, hs, hs']
    exact .pi (iht hm.1) (ihb hm.2)

end Calls

end ProofAssistant
