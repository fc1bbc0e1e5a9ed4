import ProofAssistant.Proofs.ConstructorFields
import ProofAssistant.Proofs.FinishedTerms
import ProofAssistant.Proofs.RecursiveCalls

/-!
# Hypotheses that are handed out

`Local.Between n n' xs` says of a list of hypotheses that they are distinct, and that their numbers lie between the next
number before and the next number after. For each function that opens a telescope there is one lemma that says what it
hands out: how many hypotheses, with which numbers, and that their types are in scope.
-/

namespace ProofAssistant

open FreshM List

variable {s s' : Supply} {values : List (Id × Term)} {E : Elaborator} {type : Term} {xs : List Local}
variable {r : List Local × List Name} {start k arity count : Nat} {early : Prop} {m t result expected : Term}
  {names : List Name} {Γ : Context}

/-! ## Replacements by terms without loose indices -/

/-- Keeps loose indices, and puts terms that have none. -/
structure Replacement.Closed (s : Replacement) : Prop where
  var : ∀ i, s.var i = .var i
  free : ∀ x, (s.free x).In {} 0

namespace Replacement.Closed

lemma up {s : Replacement} (h : s.Closed) : s.up = s := by
  ext z
  · cases z with
    | zero => exact (h.var 0).symm
    | succ i =>
      show (s.var i).shift = s.var (i + 1)
      rw [h.var, h.var]
      rfl
  · refine Term.rename_eq_self fun i hi => ?_
    have hbound := (h.free z).looseBound_le
    omega

lemma putAll {s : Replacement} (h : s.Closed) {as : List Term} (has : ∀ a ∈ as, a.In {} 0)
    (xs : List Local) : (s.putAll xs as).Closed := by
  induction xs generalizing s as with
  | nil => exact h
  | cons x xs ih =>
    cases as with
    | nil => exact h
    | cons a as =>
      rw [forall_mem_cons] at has
      have hput : (s.put x.id a).Closed := by
        refine ⟨h.var, fun y => ?_⟩
        show (if y = x.id then a else s.free y).In {} 0
        split
        · exact has.1
        · exact h.free y
      exact ih hput has.2

end Replacement.Closed

lemma Replacement.closed_id : Replacement.id.Closed :=
  ⟨fun _ => rfl, fun _ => trivial⟩

/-- Puts for each hypothesis the first term listed for it. -/
def Replacement.listed (values : List (Id × Term)) : Replacement where
  var := .var
  free x := (values.lookup x).getD (.free x)

lemma Replacement.closed_listed (h : ∀ p ∈ values, p.2.In {} 0) : (Replacement.listed values).Closed := by
  refine ⟨fun _ => rfl, fun x => ?_⟩
  show ((values.lookup x).getD (.free x)).In {} 0
  cases hx : values.lookup x with
  | none => trivial
  | some v => exact h (x, v) (mem_of_lookup_eq_some hx)

namespace Term

lemma subst_eq_replace (h : ∀ p ∈ values, p.2.In {} 0) (m : Term) : m.subst values = m.replace (.listed values) := by
  rw [subst, substFree_eq_mapVars _ 0]
  exact mapVars_eq_replace (fun _ => (Replacement.closed_listed h).up) 0 m

/-- Substitution by terms of a scope leads into it, if it admits the hypotheses for which none is listed. -/
lemma In.subst {S S' : Scope} (hm : m.In S k)
    (hS : Scope.Le { S with free := fun _ => False } S') (hvalues : ∀ p ∈ values, p.2.In S' 0)
    (hfree : ∀ x, S.free x → values.lookup x = none → S'.free x) : (m.subst values).In S' k := by
  have hclosed : ∀ p ∈ values, p.2.In {} 0 := fun p hp => (hvalues p hp).widen (Scope.le_of_free fun _ _ => trivial)
  rw [subst_eq_replace hclosed]
  refine hm.replace hS (fun i hi => hi) fun x hx => ?_
  show ((values.lookup x).getD (.free x)).In S' k
  cases hlookup : values.lookup x with
  | none => exact hfree x hx hlookup
  | some v => exact (hvalues (x, v) (mem_of_lookup_eq_some hlookup)).le (Nat.zero_le k)

end Term

/-! ## Numbers of hypotheses -/

/-- The hypotheses are distinct, and their numbers lie from `n` on and below `n'`. -/
structure Local.Between (n n' : Nat) (xs : List Local) : Prop where
  le : n ≤ n'
  nodup : (xs.map Local.id).Nodup
  number : ∀ x ∈ xs, n ≤ x.id.number ∧ x.id.number < n'

namespace Local.Between

variable {n n' n'' : Nat} {xs ys : List Local}

lemma nil (h : n ≤ n') : Between n n' [] :=
  ⟨h, nodup_nil, by simp⟩

lemma append (hxs : Between n n' xs) (hys : Between n' n'' ys) : Between n n'' (xs ++ ys) where
  le := Nat.le_trans hxs.le hys.le
  nodup := by
    rw [map_append, nodup_append]
    refine ⟨hxs.nodup, hys.nodup, fun i hi j hj hij => ?_⟩
    obtain ⟨x, hx, rfl⟩ := mem_map.mp hi
    obtain ⟨y, hy, rfl⟩ := mem_map.mp hj
    have hx := hxs.number x hx
    have hy := hys.number y hy
    rw [hij] at hx
    omega
  number x hx := by
    have hle := hxs.le
    have hle' := hys.le
    rcases mem_append.mp hx with hx | hx
    · have := hxs.number x hx
      omega
    · have := hys.number x hx
      omega

lemma new (n : Nat) (x : Name) (t : Term) : Between n (n + 1) [Local.new n x t] :=
  ⟨Nat.le_succ n, nodup_singleton _, by simp [Local.new]⟩

lemma weaken (h : Between n n' xs) {i j : Nat} (hi : i ≤ n) (hj : n' ≤ j) : Between i j xs where
  le := Nat.le_trans hi (Nat.le_trans h.le hj)
  nodup := h.nodup
  number x hx := by
    have := h.number x hx
    omega

lemma sublist (h : Between n n' xs) (hys : ys.Sublist xs) : Between n n' ys where
  le := h.le
  nodup := h.nodup.sublist (hys.map _)
  number y hy := h.number y (hys.subset hy)

lemma of_ids (h : Between n n' xs) (hids : ys.map Local.id = xs.map Local.id) : Between n n' ys where
  le := h.le
  nodup := hids ▸ h.nodup
  number y hy := by
    obtain ⟨x, hx, hxy⟩ := mem_map.mp (hids ▸ mem_map_of_mem hy)
    exact hxy ▸ h.number x hx

lemma not_mem_ids (h : Between n n' xs) {x : Id} (hx : x.number < n) : x ∉ xs.map Local.id := by
  intro hmem
  obtain ⟨y, hy, rfl⟩ := mem_map.mp hmem
  have := h.number y hy
  omega

end Local.Between

@[simp] lemma FreshM.ends_assume {x : Name} {h : Local} :
    FreshM.Ends (assume x t) s h s' ↔ Local.new s.next x t = h ∧ { s with next := s.next + 1 } = s' := by
  rw [assume, ends_modifyGet, Supply.assume, Prod.mk.injEq]

/-! ## Telescopes -/

lemma Compiler.openArguments_between {S : Scope} (hS : E.env.Admits S) (htype : type.In S 0)
    (h : FreshM.Ends (Compiler.openArguments E arity type) s (.ok (xs, result)) s') :
    xs.length = arity ∧ Local.Between s.next s'.next xs ∧ Local.AllIn S xs ∧ result.In (S.pushAll xs) 0 := by
  induction arity generalizing S type s xs with
  | zero =>
    obtain ⟨hr, rfl⟩ := h.pure
    obtain ⟨rfl, rfl⟩ := Prod.mk.inj (Except.ok.inj hr)
    exact ⟨rfl, .nil (Nat.le_refl _), trivial, htype⟩
  | succ arity ih =>
    obtain ⟨type', s₁, hred, h⟩ := h.bind
    obtain ⟨hwhnf, rfl⟩ := ends_ofOption.mp hred
    have htype' := (Env.steps_of_whnf hwhnf).in_scope hS htype
    split at h
    · obtain ⟨x, s₁, hx, h⟩ := h.bind
      obtain ⟨rfl, rfl⟩ := ends_assume.mp hx
      obtain ⟨r, s₂, hr, h⟩ := h.bind
      split at h
      · obtain ⟨he, rfl⟩ := h.pure
        obtain ⟨rfl, rfl⟩ := Prod.mk.inj (Except.ok.inj he)
        obtain ⟨hlen, hbetween, hin, hresult⟩ := ih (hS.push _) (htype'.2.opened _) hr
        exact ⟨congrArg (· + 1) hlen, (Local.Between.new _ _ _).append hbetween, ⟨htype'.1, hin⟩, hresult⟩
      · exact nomatch (h.pure).1
    · exact nomatch (h.pure).1

namespace Elaborator

variable {S : Scope} {s s' : Supply}

lemma openFields_between {name : Name → Name} (htype : type.In S 0) (hcount : type.numBinders = count)
    (h : FreshM.Ends (openFields name count names type) s r s') :
    r.1.length = count ∧ Local.Between s.next s'.next r.1 ∧ Local.AllIn S r.1 := by
  induction count generalizing S names type s r with
  | zero =>
    obtain ⟨rfl, rfl⟩ := h.pure
    exact ⟨Eq.refl _, .nil (Nat.le_refl _), trivial⟩
  | succ count ih =>
    cases type with
    | pi x i t b =>
      obtain ⟨y, s₁, hy, h⟩ := h.bind
      obtain ⟨rfl, rfl⟩ := ends_assume.mp hy
      obtain ⟨r', s₂, hr, h⟩ := h.bind
      obtain ⟨rfl, rfl⟩ := h.pure
      have hnum := Term.numBinders_replace_of_places b
        (Replacement.ofPlaces_single (Local.new s.next (names.head?.getD (name x)) t).id)
      rw [← Term.instantiate_eq_replace] at hnum
      obtain ⟨hlen, hbetween, hin⟩ := ih (htype.2.opened _) (hnum.1.trans (Nat.succ.inj hcount)) hr
      exact ⟨congrArg (· + 1) hlen, (Local.Between.new _ _ _).append hbetween, htype.1, hin⟩
    | _ => simp [Term.numBinders] at hcount

lemma openHypotheses_between {motive : Term → Term} {single : Bool} (hmotive : ∀ x ∈ xs, (motive x.term).In S 0)
    (h : FreshM.Ends (openHypotheses motive single names xs) s r s') :
    r.1.length = xs.length ∧ Local.Between s.next s'.next r.1 ∧ Local.AllIn S r.1 := by
  induction xs generalizing S names s r with
  | nil =>
    obtain ⟨rfl, rfl⟩ := h.pure
    exact ⟨Eq.refl _, .nil (Nat.le_refl _), trivial⟩
  | cons x xs ih =>
    obtain ⟨hx, hmotive⟩ := forall_mem_cons.mp hmotive
    obtain ⟨y, s₁, hy, h⟩ := h.bind
    obtain ⟨rfl, rfl⟩ := ends_assume.mp hy
    obtain ⟨r', s₂, hr, h⟩ := h.bind
    obtain ⟨rfl, rfl⟩ := h.pure
    obtain ⟨hlen, hbetween, hin⟩ :=
      ih (fun z hz => (hmotive z hz).widen (S.le_push _)) hr
    exact ⟨congrArg (· + 1) hlen, (Local.Between.new _ _ _).append hbetween, hx, hin⟩

/-- The new hypotheses are in scope if the values are, and these cover what the scope does not admit. -/
lemma replaceLocals_between {S' : Scope} (hS : Scope.Le { S with free := fun _ => False } S')
    (hxs : Local.AllIn S xs) (hvalues : ∀ p ∈ values, p.2.In S' 0)
    (hfree : ∀ x, S.free x → values.lookup x = none → S'.free x) {r : List Local × List (Id × Term)}
    (h : FreshM.Ends (replaceLocals values xs) s r s') :
    r.1.length = xs.length ∧ Local.Between s.next s'.next r.1 ∧ Local.AllIn S' r.1 ∧
      r.2 = values ++ (xs.map Local.id).zip (r.1.map Local.term) := by
  induction xs generalizing S S' values s r with
  | nil =>
    obtain ⟨rfl, rfl⟩ := h.pure
    exact ⟨Eq.refl _, .nil (Nat.le_refl _), trivial, by simp⟩
  | cons x xs ih =>
    obtain ⟨y, s₁, hy, h⟩ := h.bind
    obtain ⟨rfl, rfl⟩ := ends_assume.mp hy
    obtain ⟨r', s₂, hr, h⟩ := h.bind
    obtain ⟨rfl, rfl⟩ := h.pure
    have htype := hxs.1.subst hS hvalues hfree
    generalize hy : Local.new s.next x.name (x.type.subst values) = y at hr ⊢
    have hS' : Scope.Le { S.push x.id with free := fun _ => False } (S'.push y.id) :=
      ⟨fun _ hx => hx.elim, hS.level, hS.const, hS.ctor, hS.hole⟩
    have hvalues' : ∀ p ∈ values ++ [(x.id, y.term)], p.2.In (S'.push y.id) 0 := by
      intro p hp
      rcases mem_append.mp hp with hp | hp
      · exact (hvalues p hp).widen (S'.le_push _)
      · obtain rfl := mem_singleton.mp hp
        exact .inr (Eq.refl _)
    have hfree' : ∀ z, (S.push x.id).free z → (values ++ [(x.id, y.term)]).lookup z = none →
        (S'.push y.id).free z := by
      intro z hz hnone
      rw [lookup_append, Option.or_eq_none_iff] at hnone
      rcases hz with hz | rfl
      · exact .inl (hfree z hz hnone.1)
      · simp at hnone
    obtain ⟨hlen, hbetween, hin, hvalues⟩ := ih hS' hxs.2 hvalues' hfree' hr
    refine ⟨congrArg (· + 1) hlen, ?_, ?_, ?_⟩
    · exact hy ▸ (Local.Between.new _ _ _).append hbetween
    · exact ⟨hy ▸ htype, hin⟩
    · simp [hvalues]

end Elaborator

/-! ## Elaboration -/

mutual

lemma Expr.over_all : (e : Expr) → e.Over (.all start early)
  | .ident _ => .ident trivial
  | .explicit _ => .explicit trivial
  | .app f a => .app f.over_all a.over_all
  | .lam _ none b => .lam (fun _ ht => nomatch ht) b.over_all
  | .lam _ (some t) b => .lam (fun _ ht => Option.mem_some.mp ht ▸ t.over_all) b.over_all
  | .pi _ _ t b => .pi t.over_all b.over_all
  | .sort _ => .sort
  | .hole => .hole
  | .deferred => .deferred trivial
  | .this => .this
  | .assumption t => .assumption t.over_all
  | .annot e t => .annot e.over_all t.over_all
  | .term m => .term m.over_all
  | .script t => .script t.over_all
  | .chain e steps => .chain e.over_all fun s _ => s.over_all

lemma ChainStep.over_all : (s : ChainStep) → s.Over (.all start early)
  | .mk r e p => .mk r.over_all e.over_all p.over_all

lemma Tactic.over_all : (t : Tactic) → t.Over (.all start early)
  | .intro _ => .intro
  | .cases _ _ => .cases
  | .induction _ _ => .induction
  | .rw e _ _ => .rw e.over_all
  | .split => .split
  | .assumption => .assumption
  | .exact e => .exact e.over_all
  | .apply e => .apply e.over_all
  | .simp es => .simp fun e _ => e.over_all
  | .rfl => .rfl
  | .decide => .decide
  | .deferred => .deferred trivial
  | .seq ts => .seq fun t _ => t.over_all
  | .loop t => .loop t.over_all
  | .focus t => .focus t.over_all
  | .all t => .all t.over_all
  | .orElse t u => .orElse t.over_all u.over_all

end

namespace Elaborator

variable {E : Elaborator} {Γ : Context} {s s' : Supply}

lemma next_le_of_fromStart {α : Type} {P : α → Prop} {x : ElabM α} {a : α}
    (hx : ElabM.Keeps ((Alphabet.all s.next).invariant {}) x P) (h : FreshM.Ends x.fromStart s a s') :
    s.next ≤ s'.next := by
  obtain ⟨μ, h⟩ := ends_fromStart.mp h
  exact (hx {} ⟨Metas.over_all _, .refl _⟩ s (Supply.over_all (Nat.le_refl _)) _ _ h).1.start

lemma next_le_of_elaborate {e : Expr} {r : Elaborated}
    (h : FreshM.Ends (E.elaborate Γ e (some expected)) s r s') : s.next ≤ s'.next := by
  have hE : (Alphabet.all s.next).Covers E := Alphabet.covers_all s.next E
  refine next_le_of_fromStart (P := fun _ => True) ?_ h
  refine (keeps_visitAs hE (recursion_over hE E.fuel) (fun x _ => x.type.over_all) e.over_all
    expected.over_all).bind fun m hm => ?_
  exact (keeps_finish hE (fun _ => trivial) hm expected.over_all).mono fun _ _ => trivial

end Elaborator

lemma Compiler.next_le_of_sortOf {l : Level} (h : FreshM.Ends (Compiler.sortOf E Γ m) s l s') : s.next ≤ s'.next :=
  Elaborator.next_le_of_fromStart (Elaborator.keeps_sortOf m) h

lemma Elaborated.Finished.term_in {r : Elaborated} (h : r.Finished E Γ type) :
    r.term.In { free := (· ∈ Γ.ids) } 0 := by
  obtain ⟨next, _, hnext, _, hchecked⟩ := h.checked
  obtain ⟨_, _, hinfers, _⟩ := Env.checks_of_check hchecked
  exact (hinfers.in_scope (Term.in_freeBound hnext (Nat.le_refl _))).widen (Scope.le_of_free fun _ hx => hx)

end ProofAssistant
