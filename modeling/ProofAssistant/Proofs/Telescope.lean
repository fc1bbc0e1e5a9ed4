import ProofAssistant.Proofs.Replacement

/-!
# Telescopes

A telescope is a list of hypotheses, the type of each in terms of those before it. `Term.pis_cons` and `Term.abs_cons`
peel a product or an abstraction over it one hypothesis at a time. `Local.AllIn S xs` says that the types of a telescope
are in scope, where each hypothesis is admitted in the types after its own.
-/

namespace ProofAssistant

open List

variable {S : Scope} {xs : List Local} {m : Term}
variable {x : Local} {bind : Local → Term → Term → Term} {k : Nat}

namespace Term

/-! ## Closing over several hypotheses -/

lemma close_close (xs ys : List Id) (k : Nat) (m : Term) :
    (m.close xs k).close ys (k + xs.length) = m.close (ys ++ xs) k := by
  rw [close_eq_replace, close_eq_replace, close_eq_replace, replace_replace]
  congr 1
  ext z
  · rfl
  · simp only [Replacement.closing, reverse_append, List.idxOf?, findIdx?_append]
    cases xs.reverse.findIdx? (· == z) with
    | some i => rfl
    | none =>
      simp only [replace]
      cases ys.reverse.findIdx? (· == z) with
      | some j => simp [Nat.add_assoc, Nat.add_comm xs.length]
      | none => rfl

@[simp] lemma close_nil (k : Nat) (m : Term) : m.close [] k = m := by
  rw [close_eq_replace]
  exact replace_id m

/-- Closing passes a binder. -/
def ClosesUnder (bind : Local → Term → Term → Term) : Prop :=
  ∀ (xs : List Id) (k : Nat) (x : Local) (t b : Term),
    (bind x t b).close xs k = bind x (t.close xs k) (b.close xs (k + 1))

lemma closesUnder_pi : ClosesUnder fun x t b => .pi x.name false t b := fun xs k x t b => by
  simp only [close_eq_replace, replace, up_closing]

lemma closesUnder_lam : ClosesUnder fun x t b => .lam x.name t b := fun xs k x t b => by
  simp only [close_eq_replace, replace, up_closing]

/-- Closing a bound term over hypotheses `before` it, some of which may be bound already. -/
private lemma close_bindAll (hbind : ClosesUnder bind)
    (pre before : List Id) (xs : List Local) (m : Term) :
    (bindAll bind before xs (m.close (before ++ xs.map Local.id) 0)).close pre before.length =
      bindAll bind (pre ++ before) xs (m.close (pre ++ before ++ xs.map Local.id) 0) := by
  induction xs generalizing before with
  | nil =>
    simp only [bindAll, map_nil, append_nil]
    have h := close_close before pre 0 m
    rwa [Nat.zero_add] at h
  | cons x xs ih =>
    have htype := close_close before pre 0 x.type
    rw [Nat.zero_add] at htype
    have hbody := ih (before ++ [x.id])
    simp only [length_append, length_singleton, append_assoc, singleton_append] at hbody
    simp only [bindAll, map_cons]
    rw [hbind, htype]
    simp only [append_assoc]
    rw [hbody]

private lemma bindAll_cons (hbind : ClosesUnder bind) (x : Local)
    (xs : List Local) (m : Term) : bindAll bind [] (x :: xs) (m.close ((x :: xs).map Local.id) 0) =
      bind x x.type ((bindAll bind [] xs (m.close (xs.map Local.id) 0)).close [x.id] 0) := by
  have h := close_bindAll hbind [x.id] [] xs m
  simp only [nil_append, length_nil, append_nil, singleton_append] at h
  simp only [bindAll, map_cons, close_nil, nil_append, h]

lemma pis_cons (x : Local) (xs : List Local) (m : Term) :
    m.pis (x :: xs) = .pi x.name false x.type ((m.pis xs).close [x.id] 0) :=
  bindAll_cons closesUnder_pi x xs m

@[simp] lemma pis_nil (m : Term) : m.pis [] = m :=
  close_nil 0 m

lemma pis_append (xs ys : List Local) (m : Term) : m.pis (xs ++ ys) = (m.pis ys).pis xs := by
  induction xs with
  | nil => simp
  | cons x xs ih => rw [cons_append, pis_cons, ih, ← pis_cons]

lemma abs_cons (x : Local) (xs : List Local) (m : Term) :
    m.abs (x :: xs) = .lam x.name x.type ((m.abs xs).close [x.id] 0) :=
  bindAll_cons closesUnder_lam x xs m

@[simp] lemma abs_nil (m : Term) : m.abs [] = m :=
  close_nil 0 m

lemma abs_append (xs ys : List Local) (m : Term) : m.abs (xs ++ ys) = (m.abs ys).abs xs := by
  induction xs with
  | nil => simp
  | cons x xs ih => rw [cons_append, abs_cons, ih, ← abs_cons]

end Term

/-! ## Scopes -/

/-- The scope with a further hypothesis. -/
def Scope.push (S : Scope) (x : Id) : Scope :=
  { S with free := fun y => S.free y ∨ y = x }

lemma Scope.le_push (S : Scope) (x : Id) : S.Le (S.push x) where
  free _ h := .inl h

/-- The scope with further hypotheses. -/
def Scope.pushAll (S : Scope) (xs : List Local) : Scope :=
  xs.foldl (fun S x => S.push x.id) S

/-- The types of a telescope are in scope. -/
def Local.AllIn : Scope → List Local → Prop
  | _, [] => True
  | S, x :: xs => x.type.In S 0 ∧ AllIn (S.push x.id) xs

lemma Scope.le_pushAll (S : Scope) (xs : List Local) : S.Le (S.pushAll xs) := by
  induction xs generalizing S with
  | nil => exact {}
  | cons x xs ih =>
    have h := ih (S.push x.id)
    exact ⟨fun y hy => h.free y (.inl hy), h.level, h.const, h.ctor, h.hole⟩

lemma Scope.pushAll_append (S : Scope) (xs ys : List Local) : S.pushAll (xs ++ ys) = (S.pushAll xs).pushAll ys :=
  foldl_append

lemma Scope.pushAll_free (S : Scope) (xs : List Local) (y : Id) :
    (S.pushAll xs).free y ↔ S.free y ∨ y ∈ xs.map Local.id := by
  induction xs generalizing S with
  | nil => simp [pushAll]
  | cons x xs ih =>
    show (Scope.pushAll (S.push x.id) xs).free y ↔ _
    rw [ih, push, map_cons, mem_cons, or_assoc]

lemma Scope.pushAll_const (S : Scope) (xs : List Local) : (S.pushAll xs).const = S.const := by
  induction xs generalizing S with
  | nil => rfl
  | cons x xs ih => exact ih (S.push x.id)

lemma Scope.pushAll_ctor (S : Scope) (xs : List Local) : (S.pushAll xs).ctor = S.ctor := by
  induction xs generalizing S with
  | nil => rfl
  | cons x xs ih => exact ih (S.push x.id)

lemma Local.allIn_append {ys : List Local} : AllIn S (xs ++ ys) ↔ AllIn S xs ∧ AllIn (S.pushAll xs) ys := by
  induction xs generalizing S with
  | nil => simp [AllIn, Scope.pushAll]
  | cons x xs ih =>
    rw [cons_append, AllIn, AllIn, ih, and_assoc]
    rfl

lemma Local.AllIn.mono {S' : Scope} (hS : S.Le S') (h : AllIn S xs) : AllIn S' xs := by
  induction xs generalizing S S' with
  | nil => trivial
  | cons x xs ih =>
    refine ⟨h.1.widen hS, ih ?_ h.2⟩
    exact ⟨fun y hy => hy.imp (hS.free y) fun he => he, hS.level, hS.const, hS.ctor, hS.hole⟩

lemma Local.AllIn.type_in (h : AllIn S xs) (hx : x ∈ xs) :
    x.type.In { S with free := fun _ => True } 0 := by
  induction xs generalizing S with
  | nil => simp at hx
  | cons y xs ih =>
    rcases mem_cons.mp hx with rfl | hx
    · exact h.1.widen { free := fun _ _ => trivial }
    · have htail := ih h.2 hx
      exact htail

/-- Types that do not depend on each other. -/
lemma Local.AllIn.of_forall (h : ∀ x ∈ xs, x.type.In S 0) : AllIn S xs := by
  induction xs generalizing S with
  | nil => trivial
  | cons x xs ih =>
    rw [forall_mem_cons] at h
    exact ⟨h.1, ih fun y hy => (h.2 y hy).widen (S.le_push x.id)⟩

lemma Term.in_pushAll_term (hx : x ∈ xs) : x.term.In (S.pushAll xs) 0 :=
  (S.pushAll_free xs x.id).mpr (.inr (mem_map_of_mem hx))

lemma Term.In.opened {b : Term} (hb : b.In S (k + 1)) (x : Local) :
    (b.instantiate x.term).In (S.push x.id) k :=
  (hb.widen (S.le_push x.id)).instantiate (.inr rfl)

lemma Term.In.close_pushed {x : Id} (hm : m.In (S.push x) k) : (m.close [x] 0).In S (k + 1) := by
  refine hm.close.widen { free := ?_ }
  rintro y ⟨hy | hy, hne⟩
  · exact hy
  · exact absurd hy hne

lemma Term.In.pis (hxs : Local.AllIn S xs) (hm : m.In (S.pushAll xs) 0) : (m.pis xs).In S 0 := by
  induction xs generalizing S with
  | nil => rwa [pis_nil]
  | cons x xs ih =>
    rw [pis_cons]
    exact ⟨hxs.1, (ih hxs.2 hm).close_pushed⟩

lemma Term.In.abs (hxs : Local.AllIn S xs) (hm : m.In (S.pushAll xs) 0) : (m.abs xs).In S 0 := by
  induction xs generalizing S with
  | nil => rwa [abs_nil]
  | cons x xs ih =>
    rw [abs_cons]
    exact ⟨hxs.1, (ih hxs.2 hm).close_pushed⟩

/-! ## What others see of a hypothesis -/

/-- A hypothesis without its name. -/
def Local.entry (x : Local) : Id × Term :=
  (x.id, x.type)

namespace Context

lemma entries_renameLast (old new : Name) (xs : List Local) :
    (renameLast old new xs).map Local.entry = xs.map Local.entry := by
  induction xs with
  | nil => rfl
  | cons x xs ih =>
    unfold renameLast
    split
    · rw [map_cons, map_cons, ih]
    · split <;> rfl

/-- A context that a hypothesis is added to may rename another, but leaves the rest of it. -/
lemma entries_push (Γ : Context) (x : Local) :
    (Γ.push x).locals.map Local.entry = (Γ.add x).locals.map Local.entry := by
  unfold push
  split
  · rfl
  · rw [locals_add, map_append, entries_renameLast, locals_add, map_append]

end Context

end ProofAssistant
