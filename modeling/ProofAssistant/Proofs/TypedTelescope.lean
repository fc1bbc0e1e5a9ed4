import ProofAssistant.Proofs.SubjectReduction

/-!
# Telescopes and their arguments

A function of a product over a telescope takes one argument for each hypothesis, whose type is that of the
hypothesis with the earlier arguments put for the earlier hypotheses. `Replacement.putAll` is that
replacement and `Env.ArgsTyped` says that the arguments have those types.
-/

namespace ProofAssistant

open List Replacement Term

variable {ys : List Local} {bs : List Term} {S : Scope}
variable {m a T : Term} {s' s : Replacement} {i k : Nat} {x : Local}

/-! ## Arguments put for hypotheses -/

namespace Replacement

variable {xs : List Local} {as : List Term}

/-- Puts a term for a hypothesis. -/
def put (s : Replacement) (x : Id) (a : Term) : Replacement where
  var := s.var
  free y := if y = x then a else s.free y

/-- Puts terms for hypotheses, in order. -/
def putAll (s : Replacement) : List Local → List Term → Replacement
  | x :: xs, a :: as => (s.put x.id a).putAll xs as
  | _, _ => s

lemma putAll_append (s : Replacement) (hlen : xs.length = as.length) :
    s.putAll (xs ++ ys) (as ++ bs) = (s.putAll xs as).putAll ys bs := by
  induction xs generalizing s as with
  | nil => rw [length_eq_zero_iff.mp hlen.symm]; rfl
  | cons x xs ih =>
    cases as with
    | nil => simp at hlen
    | cons a as => exact ih (s.put x.id a) (by simpa using hlen)

/-- A hypothesis that nothing is put for stays as it is. -/
lemma putAll_free (s : Replacement) {y : Id} (hy : y ∉ xs.map Local.id) : (s.putAll xs as).free y = s.free y := by
  induction xs generalizing s as with
  | nil => rfl
  | cons x xs ih =>
    cases as with
    | nil => rfl
    | cons a as =>
      rw [map_cons, mem_cons, not_or] at hy
      rw [putAll, ih (s.put x.id a) hy.2]
      exact if_neg hy.1

lemma putAll_terms (s : Replacement) (hlen : xs.length = as.length) (hnodup : (xs.map Local.id).Nodup) :
    (xs.map Local.term).map (·.replace (s.putAll xs as)) = as := by
  induction xs generalizing s as with
  | nil => exact (List.length_eq_zero_iff.mp hlen.symm).symm
  | cons x xs ih =>
    cases as with
    | nil => simp at hlen
    | cons a as =>
      obtain ⟨hx, hnodup⟩ := List.nodup_cons.mp hnodup
      have hhead : x.term.replace (s.putAll (x :: xs) (a :: as)) = a := by
        rw [putAll, Local.term, Term.replace, putAll_free _ hx]
        exact if_pos rfl
      rw [List.map_cons, List.map_cons, hhead]
      exact congrArg (a :: ·) (ih (s.put x.id a) (by simpa using hlen) hnodup)

/-- What is put for other hypotheses afterwards does not matter. -/
lemma putAll_terms_left (s : Replacement) (bs : List Term) (hlen : xs.length = as.length)
    (hnodup : ((xs ++ ys).map Local.id).Nodup) :
    (xs.map Local.term).map (·.replace (s.putAll (xs ++ ys) (as ++ bs))) = as := by
  rw [map_append, nodup_append] at hnodup
  obtain ⟨hxs, _, hdisjoint⟩ := hnodup
  calc (xs.map Local.term).map (·.replace (s.putAll (xs ++ ys) (as ++ bs)))
      = (xs.map Local.term).map (·.replace (s.putAll xs as)) := by
        rw [s.putAll_append hlen, map_map, map_map]
        exact map_congr_left fun x hx =>
          putAll_free _ fun hy => hdisjoint _ (mem_map_of_mem hx) _ hy rfl
    _ = as := s.putAll_terms hlen hxs

lemma putAll_own (h : ∀ x ∈ xs, s.free x.id = x.term) : s.putAll xs (xs.map Local.term) = s := by
  induction xs with
  | nil => rfl
  | cons x xs ih =>
    obtain ⟨hx, hxs⟩ := forall_mem_cons.mp h
    have hput : s.put x.id x.term = s := by
      ext y
      · rfl
      · show (if y = x.id then x.term else s.free y) = s.free y
        split
        · rename_i hy
          rw [hy, hx]
        · rfl
    rw [map_cons, putAll, hput, ih hxs]

end Replacement

lemma Term.replace_close_instantiate (hm : m.In S 0) (s : Replacement) (x : Id) (a : Term) :
    ((m.close [x] 0).replace s.up).instantiate a = m.replace (s.put x a) := by
  rw [close_eq_abstracted hm, replace_replace, instantiate_eq_replace, replace_replace]
  refine hm.replace_congr fun y _ => ?_
  by_cases hy : y = x
  · subst hy
    simp [abstracted, put, replace, up, single]
  · have hfree : (abstracted x).free y = .free y := if_neg hy
    have hput : (s.put x a).free y = s.free y := if_neg hy
    dsimp only
    rw [hfree, hput]
    show ((s.free y).shift).replace (.single a) = s.free y
    rw [← instantiate_eq_replace, instantiate_shift]

/-! ## Levels of a telescope -/

/-- Maps the levels in the type of a hypothesis. -/
def Local.mapLevels (f : Level → Level) (x : Local) : Local :=
  { x with type := x.type.mapLevels f }

@[simp] lemma Local.id_mapLevels (f : Level → Level) (x : Local) : (x.mapLevels f).id = x.id := rfl

@[simp] lemma Replacement.putAll_mapLevels (s : Replacement) (f : Level → Level) (xs : List Local)
    (as : List Term) : s.putAll (xs.map (·.mapLevels f)) as = s.putAll xs as := by
  induction xs generalizing s as with
  | nil => rfl
  | cons x xs ih =>
    cases as with
    | nil => rfl
    | cons a as => exact ih (s.put x.id a) as

@[simp] lemma Scope.pushAll_mapLevels (S : Scope) (f : Level → Level) (xs : List Local) :
    S.pushAll (xs.map (·.mapLevels f)) = S.pushAll xs := by
  induction xs generalizing S with
  | nil => rfl
  | cons x xs ih => exact ih (S.push x.id)

lemma Term.mapLevels_close (f : Level → Level) (xs : List Id) (k : Nat) (m : Term) :
    (m.close xs k).mapLevels f = (m.mapLevels f).close xs k := by
  rw [close_eq_replace, close_eq_replace, mapLevels_replace]
  congr 1
  ext z
  · rfl
  · simp only [closing]
    cases xs.reverse.idxOf? z <;> rfl

lemma Term.mapLevels_pis (f : Level → Level) (xs : List Local) (m : Term) :
    (m.pis xs).mapLevels f = (m.mapLevels f).pis (xs.map (·.mapLevels f)) := by
  induction xs with
  | nil => simp
  | cons x xs ih =>
    rw [pis_cons, mapLevels, mapLevels_close, ih, map_cons, pis_cons]
    rfl

/-- The scope restricts nothing but hypotheses. -/
def Scope.FreeOnly (S : Scope) : Prop :=
  Scope.Le { free := S.free } S

lemma Scope.FreeOnly.push (hS : S.FreeOnly) (x : Id) : (S.push x).FreeOnly :=
  ⟨fun _ h => h, hS.level, hS.const, hS.ctor, hS.hole⟩

lemma Scope.FreeOnly.pushAll (hS : S.FreeOnly) (xs : List Local) : (S.pushAll xs).FreeOnly := by
  induction xs generalizing S with
  | nil => exact hS
  | cons x xs ih => exact ih (hS.push x.id)

lemma freeOnly_noFree : InductiveSpec.noFree.FreeOnly := {}

lemma Term.In.mapLevels_of_freeOnly (hS : S.FreeOnly) (h : m.In S k) (f : Level → Level) : (m.mapLevels f).In S k :=
  h.mapLevels (fun _ hx => hx) (fun _ hx => hx) (fun _ _ => hS.level _ trivial)
    (fun _ _ _ => hS.const _ _ trivial) fun _ _ _ _ => hS.ctor _ _ _ trivial

lemma Local.AllIn.mapLevels (hS : S.FreeOnly) {xs : List Local} (h : AllIn S xs) (f : Level → Level) :
    AllIn S (xs.map (·.mapLevels f)) := by
  induction xs generalizing S with
  | nil => trivial
  | cons x xs ih => exact ⟨h.1.mapLevels_of_freeOnly hS f, ih (hS.push x.id) h.2⟩

namespace Env

variable {as : List Term} {s : Replacement} {S : Scope} {xs : List Local} {f m : Term}

open InductiveSpec

variable {env : Env} {ps : List Name} {Γ : Context} {Δ : List Term}

lemma Conv.putAll (xs : List Local) {as' : List Term} (has : List.Forall₂ env.Conv as as')
    (hs : ∀ y, env.Conv (s.free y) (s'.free y)) (y : Id) :
    env.Conv ((s.putAll xs as).free y) ((s'.putAll xs as').free y) := by
  induction has generalizing xs s s' with
  | nil => cases xs <;> exact hs y
  | cons ha _ ih =>
    cases xs with
    | nil => exact hs y
    | cons x xs =>
      refine ih xs fun z => ?_
      simp only [put]
      split
      · exact ha
      · exact hs z

/-! ## Typed arguments -/

/-- The arguments have the types of the hypotheses, with the earlier arguments put for the earlier
hypotheses. -/
inductive ArgsTyped (env : Env) (ps : List Name) (Γ : Context) (Δ : List Term) :
    Replacement → List Local → List Term → Prop
  | nil (s : Replacement) : ArgsTyped env ps Γ Δ s [] []
  | cons {s : Replacement} {x : Local} {xs : List Local} {a : Term} {as : List Term} :
    env.HasType True ps Γ Δ a (x.type.replace s) → ArgsTyped env ps Γ Δ (s.put x.id a) xs as →
    ArgsTyped env ps Γ Δ s (x :: xs) (a :: as)

namespace ArgsTyped

variable {s : Replacement} {xs : List Local} {as : List Term}

lemma length_eq (h : env.ArgsTyped ps Γ Δ s xs as) : xs.length = as.length := by
  induction h with
  | nil => rfl
  | cons _ _ ih => rw [length_cons, length_cons, ih]

lemma append (h : env.ArgsTyped ps Γ Δ s xs as) (h' : env.ArgsTyped ps Γ Δ (s.putAll xs as) ys bs) :
    env.ArgsTyped ps Γ Δ s (xs ++ ys) (as ++ bs) := by
  induction h with
  | nil => exact h'
  | cons ha _ ih => exact .cons ha (ih h')

lemma of_append (hlen : xs.length = as.length) (h : env.ArgsTyped ps Γ Δ s (xs ++ ys) (as ++ bs)) :
    env.ArgsTyped ps Γ Δ s xs as ∧ env.ArgsTyped ps Γ Δ (s.putAll xs as) ys bs := by
  induction xs generalizing s as with
  | nil =>
    obtain rfl := length_eq_zero_iff.mp hlen.symm
    exact ⟨.nil s, h⟩
  | cons x xs ih =>
    cases as with
    | nil => simp at hlen
    | cons a as =>
      cases h with
      | cons ha h =>
        obtain ⟨hxs, hys⟩ := ih (by simpa using hlen) h
        exact ⟨.cons ha hxs, hys⟩

lemma get (h : env.ArgsTyped ps Γ Δ s xs as) (hx : xs[i]? = some x)
    (ha : as[i]? = some a) : env.HasType True ps Γ Δ a (x.type.replace (s.putAll (xs.take i) (as.take i))) := by
  induction h generalizing i with
  | nil => simp at hx
  | cons ha' _ ih =>
    cases i with
    | zero =>
      obtain rfl := by simpa using hx
      obtain rfl := by simpa using ha
      exact ha'
    | succ i => exact ih (by simpa using hx) (by simpa using ha)

/-- One argument among the others, for a hypothesis whose type does not mention the other hypotheses. -/
lemma get_of_in (h : env.ArgsTyped ps Γ Δ s xs as) (hx : xs[i]? = some x)
    (ha : as[i]? = some a) (hin : x.type.In S 0) (hS : ∀ y ∈ xs, ¬ S.free y.id) :
    env.HasType True ps Γ Δ a (x.type.replace s) := by
  have heq : x.type.replace (s.putAll (xs.take i) (as.take i)) = x.type.replace s := by
    refine hin.replace_congr fun y hy => ?_
    refine s.putAll_free fun hmem => ?_
    obtain ⟨z, hz, rfl⟩ := mem_map.mp hmem
    exact hS z (mem_of_mem_take hz) hy
  exact heq ▸ h.get hx ha

/-- Arguments for hypotheses whose types do not mention any of them. -/
lemma of_forall₂ (hxs : ∀ x ∈ xs, x.type.In S 0) (hS : ∀ x ∈ xs, ¬ S.free x.id)
    (h : List.Forall₂ (fun a x => env.HasType True ps Γ Δ a (x.type.replace s)) as xs) :
    env.ArgsTyped ps Γ Δ s xs as := by
  -- What is put for the earlier hypotheses is not seen by the later types.
  suffices ∀ s' : Replacement, (∀ y, S.free y → s'.free y = s.free y) → env.ArgsTyped ps Γ Δ s' xs as from
    this s fun _ _ => rfl
  induction h with
  | nil => exact fun s' _ => .nil s'
  | @cons a x as xs ha _ ih =>
    rw [forall_mem_cons] at hxs hS
    intro s' hs'
    have heq : x.type.replace s' = x.type.replace s := hxs.1.replace_congr hs'
    refine .cons (heq ▸ ha) (ih hxs.2 hS.2 _ fun y hy => ?_)
    have hyx : y ≠ x.id := fun h => hS.1 (h ▸ hy)
    exact (if_neg hyx).trans (hs' y hy)

end ArgsTyped

/-! ## Applications -/

lemma HasType.apply_pis (hxs : Local.AllIn S xs) (hm : m.In (S.pushAll xs) 0)
    (hf : env.HasType True ps Γ Δ f ((m.pis xs).replace s)) (hargs : env.ArgsTyped ps Γ Δ s xs as) :
    env.HasType True ps Γ Δ (f.apply as) (m.replace (s.putAll xs as)) := by
  induction hargs generalizing S f with
  | nil => rwa [pis_nil] at hf
  | @cons s x xs a as ha _ ih =>
    rw [pis_cons] at hf
    have happ := HasType.app hf ha
    rw [replace_close_instantiate (Term.In.pis hxs.2 hm)] at happ
    exact ih hxs.2 hm happ

lemma HasType.head {strict : Prop} (h : env.HasType strict ps Γ Δ (f.apply as) T) :
    ∃ F, env.HasType strict ps Γ Δ f F := by
  induction as generalizing f with
  | nil => exact ⟨T, h⟩
  | cons a as ih =>
    obtain ⟨F, hF⟩ := ih h
    obtain ⟨_, _, _, _, hf, _⟩ := hF.app_inv
    exact ⟨_, hf⟩

/-- A function of a product over a telescope is applied to arguments for it, and the type is the body of
the product. -/
lemma HasType.apply_inv (henv : env.WellTyped) (hΓ : env.ContextTyped ps Γ) (hΔ : env.BindersTyped ps Γ Δ)
    (hxs : Local.AllIn S xs) (hm : m.In (S.pushAll xs) 0) (hlen : xs.length = as.length)
    (hf : env.HasType True ps Γ Δ f ((m.pis xs).replace s)) (h : env.HasType True ps Γ Δ (f.apply as) T) :
    env.ArgsTyped ps Γ Δ s xs as ∧ env.Conv (m.replace (s.putAll xs as)) T := by
  induction xs generalizing S f s as with
  | nil =>
    obtain rfl := length_eq_zero_iff.mp hlen.symm
    rw [pis_nil] at hf
    exact ⟨.nil s, hf.unique henv h⟩
  | cons x xs ih =>
    cases as with
    | nil => simp at hlen
    | cons a as =>
      obtain ⟨F, hF⟩ := HasType.head (f := f.app a) h
      obtain ⟨y, i, A, B, hf', ha, _⟩ := hF.app_inv
      rw [pis_cons] at hf
      obtain ⟨l, hpi⟩ := hf.valid henv hΓ hΔ
      obtain ⟨l₁, l₂, hx, _, _⟩ := hpi.pi_inv
      have hconv := ((hf'.unique henv hf).pi_inj henv.admits_noFree).1
      have ha' := ha.conv_type hconv ⟨l₁, hx⟩
      have happ := HasType.app hf ha'
      rw [replace_close_instantiate (Term.In.pis hxs.2 hm)] at happ
      obtain ⟨hargs, hT⟩ := ih hxs.2 hm (by simpa using hlen) happ h
      exact ⟨.cons ha' hargs, hT⟩

/-- Arguments for a telescope are so for one of convertible types, if the product over it is a type. -/
lemma ArgsTyped.convert (henv : env.WellTyped) (hΓ : env.ContextTyped ps Γ) {S' : Scope} {xs' : List Local}
    (hxs : Local.AllIn S xs) (hxs' : Local.AllIn S' xs) (hm : m.In (S'.pushAll xs) 0)
    (hconv : List.Forall₂ (fun x' x => x'.id = x.id ∧ env.Conv x'.type x.type) xs' xs)
    (hs : ∀ y, S.free y → env.Conv (s'.free y) (s.free y)) (htype : env.IsType ps Γ Δ ((m.pis xs).replace s))
    (h : env.ArgsTyped ps Γ Δ s' xs' as) : env.ArgsTyped ps Γ Δ s xs as := by
  have hadmits := henv.admits_noFree
  induction hconv generalizing S S' s s' as with
  | nil =>
    cases h with
    | nil => exact .nil s
  | @cons x' x xs' xs hx _ ih =>
    obtain ⟨hid, hx⟩ := hx
    cases h with
    | @cons _ _ _ a as ha h =>
      rw [pis_cons] at htype
      obtain ⟨l, hpi⟩ := htype
      obtain ⟨l₁, l₂, hdom, hcod, _⟩ := hpi.pi_inv
      have hdomConv : env.Conv (x'.type.replace s') (x.type.replace s) :=
        (hx.replace hadmits s').trans
          (.replace_congr hadmits hxs.1 (fun i hi => absurd hi (Nat.not_lt_zero i)) hs)
      have ha' := ha.conv_type hdomConv ⟨l₁, hdom⟩
      have hrest := hcod.instantiate henv.inScope hΓ.inScope ha'
      rw [replace_close_instantiate (Term.In.pis hxs'.2 hm)] at hrest
      refine .cons ha' (ih hxs.2 hxs'.2 hm ?_ ⟨l₂, hrest⟩ h)
      intro y hy
      show env.Conv (if y = x'.id then a else s'.free y) (if y = x.id then a else s.free y)
      rw [hid]
      split
      · exact .refl a
      · rename_i hne
        exact hs y (hy.resolve_right hne)

/-! ## Products -/

/-- The types of a telescope are types in the context of the hypotheses before them. -/
def TelescopeTyped (env : Env) (ps : List Name) : Context → List Local → Prop
  | _, [] => True
  | Γ, x :: xs => env.IsType ps Γ [] x.type ∧ x.id ∉ Γ.ids ∧ TelescopeTyped env ps (Γ.add x) xs

lemma IsType.pis (henv : env.Scoped) (hΓ : Γ.Scoped) (hxs : env.TelescopeTyped ps Γ xs)
    (hm : env.IsType ps ⟨Γ.locals ++ xs⟩ [] m) : env.IsType ps Γ [] (m.pis xs) := by
  induction xs generalizing Γ with
  | nil =>
    rw [pis_nil]
    rwa [append_nil] at hm
  | cons x xs ih =>
    obtain ⟨⟨l, hx⟩, hfresh, hxs⟩ := hxs
    obtain ⟨l', hrest⟩ := ih (scoped_add hΓ hx.in_scope) hxs (by simpa using hm)
    have habs := hrest.abstract henv hΓ hfresh hx.in_scope
    rw [pis_cons, close_eq_abstracted hrest.in_scope]
    exact ⟨_, .pi hx habs⟩

end Env

end ProofAssistant
