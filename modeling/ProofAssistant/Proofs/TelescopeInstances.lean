import ProofAssistant.Proofs.TypedFamilies

/-!
# Telescopes in other contexts

What is typed in a context stays so in every context that gives the same types to its hypotheses, whatever these are
called and in whichever order they stand (`Env.HasType.within`).

Hypotheses that are opened for a telescope may have types convertible to its own (`Env.TelescopeInstance`). A term that
is typed under them may be abstracted over them, and belongs to the product over the telescope.
-/

namespace ProofAssistant

open List Context Local Term

variable {x : Local} {xs ys : List Local}
variable {T v f b : Term}

/-! ## Contexts within others -/

/-- The second context has the hypotheses of the first, with the same types. -/
def Context.Within (Γ Γ' : Context) : Prop :=
  ∀ x h, Γ.get? x = some h → ∃ h', Γ'.get? x = some h' ∧ h'.type = h.type

namespace Context

variable {Γ Γ' Γ'' : Context}

lemma Within.refl (Γ : Context) : Γ.Within Γ :=
  fun _ h hget => ⟨h, hget, rfl⟩

lemma Within.trans (h : Γ.Within Γ') (h' : Γ'.Within Γ'') : Γ.Within Γ'' := by
  intro x y hget
  obtain ⟨y', hget', htype⟩ := h x y hget
  obtain ⟨y'', hget'', htype'⟩ := h' x y' hget'
  exact ⟨y'', hget'', htype'.trans htype⟩

lemma Within.add (h : Γ.Within Γ') (x : Local) : (Γ.add x).Within (Γ'.add x) := by
  intro y z hget
  rw [get?_add] at hget ⊢
  split
  · rename_i hxy
    rw [if_pos hxy] at hget
    exact ⟨x, rfl, Option.some.inj hget ▸ rfl⟩
  · rename_i hxy
    rw [if_neg hxy] at hget
    exact h y z hget

lemma within_add (hx : x.id ∉ Γ.ids) : Γ.Within (Γ.add x) :=
  fun _ h hget => ⟨h, get?_add_of_fresh hx hget, rfl⟩

lemma within_append (hxs : ∀ x ∈ xs, x.id ∉ Γ.ids) : Γ.Within ⟨Γ.locals ++ xs⟩ := by
  intro y z hget
  have hnone : xs.reverse.find? (·.id == y) = none := by
    refine find?_eq_none.mpr fun x hx hxy => hxs x (mem_reverse.mp hx) ?_
    exact beq_iff_eq.mp hxy ▸ mem_ids_of_get? hget
  refine ⟨z, ?_, rfl⟩
  rw [get?, reverse_append, find?_append, hnone]
  exact hget

end Context

/-! ### What others see of a hypothesis -/

lemma Local.ids_of_entries (h : xs.map entry = ys.map entry) : xs.map Local.id = ys.map Local.id := by
  have hfst := congrArg (List.map Prod.fst) h
  rwa [map_map, map_map] at hfst

lemma Local.AllIn.of_entries {S : Scope} (hxs : AllIn S xs) (h : ys.map entry = xs.map entry) : AllIn S ys := by
  induction xs generalizing S ys with
  | nil =>
    obtain rfl := map_eq_nil_iff.mp h
    trivial
  | cons x xs ih =>
    cases ys with
    | nil => trivial
    | cons y ys =>
      rw [map_cons, map_cons, List.cons.injEq] at h
      obtain ⟨hid, htype⟩ := Prod.mk.inj h.1
      refine ⟨htype ▸ hxs.1, ?_⟩
      have hys := ih hxs.2 h.2
      rwa [← hid] at hys

namespace Context

variable {Γ Γ' : Context}

lemma entries_pushAll (Γ : Context) (xs : List Local) :
    (Γ.pushAll xs).locals.map entry = (Γ.locals ++ xs).map entry := by
  induction xs generalizing Γ with
  | nil => rw [append_nil]; rfl
  | cons x xs ih =>
    show ((Γ.push x).pushAll xs).locals.map entry = _
    rw [ih, map_append, entries_push]
    simp

lemma within_of_entries (h : Γ.locals.map entry = Γ'.locals.map entry) : Γ.Within Γ' := by
  have hfind (Γ : Context) (x : Id) :
      (Γ.get? x).map entry = (Γ.locals.map entry).reverse.find? (·.1 == x) := by
    rw [← map_reverse, find?_map]
    rfl
  intro x y hget
  have hsome := hfind Γ' x
  rw [← h, ← hfind, hget] at hsome
  obtain ⟨y', hget', hentry⟩ := Option.map_eq_some_iff.mp hsome
  exact ⟨y', hget', congrArg Prod.snd hentry⟩

lemma Scoped.of_entries (hΓ : Γ.Scoped) (h : Γ.locals.map entry = Γ'.locals.map entry) : Γ'.Scoped := by
  intro x y hget
  obtain ⟨y', hget', htype⟩ := within_of_entries h.symm x y hget
  have hids : Γ.ids = Γ'.ids := ids_of_entries h
  rw [← htype, ← hids]
  exact hΓ x y' hget'

end Context

namespace Env

variable {m : Term} {s : Replacement} {xs : List Local} {as : List Term} {S : Scope}

open InductiveSpec

variable {env : Env} {ps : List Name} {Γ Γ' : Context} {Δ : List Term}

lemma bindersTyped_nil : env.BindersTyped ps Γ [] :=
  trivial

/-- Only the types of the hypotheses matter. -/
lemma HasType.within {strict : Prop} (henv : env.Scoped) (hΓ : Γ.Scoped) (hΓ' : Γ'.Scoped)
    (h : env.HasType strict ps Γ Δ m T) (hle : Γ.Within Γ') : env.HasType strict ps Γ' Δ m T := by
  have hputs : Puts env strict ps Γ Δ Γ' Δ .id := by
    refine ⟨fun i A hA => ?_, fun x y hget => ?_⟩
    · rw [replace_id]
      exact .var hA
    · obtain ⟨y', hget', htype⟩ := hle x y hget
      rw [replace_id, ← htype]
      exact .free hget'
  have h' := h.replace henv hΓ hΓ' hputs
  rwa [replace_id, replace_id] at h'

lemma IsType.within (henv : env.Scoped) (hΓ : Γ.Scoped) (hΓ' : Γ'.Scoped) (h : env.IsType ps Γ Δ T)
    (hle : Γ.Within Γ') : env.IsType ps Γ' Δ T := by
  obtain ⟨l, hl⟩ := h
  exact ⟨l, hl.within henv hΓ hΓ' hle⟩

lemma ContextTyped.of_entries (henv : env.Scoped) (hΓ : env.ContextTyped ps Γ)
    (h : Γ.locals.map entry = Γ'.locals.map entry) : env.ContextTyped ps Γ' := by
  intro x y hget
  obtain ⟨y', hget', htype⟩ := within_of_entries h.symm x y hget
  rw [← htype]
  exact (hΓ x y' hget').within henv hΓ.inScope (hΓ.inScope.of_entries h) (within_of_entries h)

lemma ArgsTyped.within (henv : env.Scoped) (hΓ : Γ.Scoped) (hΓ' : Γ'.Scoped) (h : env.ArgsTyped ps Γ Δ s xs as)
    (hle : Γ.Within Γ') : env.ArgsTyped ps Γ' Δ s xs as := by
  induction h with
  | nil s => exact .nil s
  | cons ha _ ih => exact .cons (ha.within henv hΓ hΓ' hle) ih

namespace TelescopeTyped

variable {xs ys : List Local} {x : Local}

lemma of_append (h : env.TelescopeTyped ps Γ (xs ++ ys)) :
    env.TelescopeTyped ps Γ xs ∧ env.TelescopeTyped ps ⟨Γ.locals ++ xs⟩ ys := by
  induction xs generalizing Γ with
  | nil =>
    refine ⟨trivial, ?_⟩
    rwa [append_nil]
  | cons x xs ih =>
    obtain ⟨htype, hx, h⟩ := h
    obtain ⟨hxs, hys⟩ := ih h
    rw [locals_add, append_assoc] at hys
    exact ⟨⟨htype, hx, hxs⟩, hys⟩

lemma fresh (h : env.TelescopeTyped ps Γ xs) (hx : x ∈ xs) : x.id ∉ Γ.ids := by
  induction xs generalizing Γ with
  | nil => exact nomatch hx
  | cons y ys ih =>
    obtain ⟨_, hy, hys⟩ := h
    rcases mem_cons.mp hx with rfl | hx
    · exact hy
    · intro hmem
      exact ih hys hx (by simpa using .inl hmem)

section

variable (henv : env.Scoped)
include henv

lemma within (hΓ : Γ.Scoped) (hΓ' : Γ'.Scoped) (h : env.TelescopeTyped ps Γ xs)
    (hle : Γ.Within Γ') (hfresh : ∀ x ∈ xs, x.id ∉ Γ'.ids) : env.TelescopeTyped ps Γ' xs := by
  induction xs generalizing Γ Γ' with
  | nil => trivial
  | cons x xs ih =>
    obtain ⟨⟨l, hl⟩, hx, hxs⟩ := h
    obtain ⟨hx', hfresh⟩ := forall_mem_cons.mp hfresh
    have hl' := hl.within henv hΓ hΓ' hle
    refine ⟨⟨l, hl'⟩, hx', ih (scoped_add hΓ hl.in_scope) (scoped_add hΓ' hl'.in_scope) hxs (hle.add x) ?_⟩
    intro y hy hmem
    rw [mem_ids_add] at hmem
    rcases hmem with hmem | hyx
    · exact hfresh y hy hmem
    · exact hxs.fresh hy (by simp [hyx])

/-- The names of the hypotheses do not matter. -/
lemma of_entries (hΓ : Γ.Scoped)
    (hentries : Γ.locals.map entry = Γ'.locals.map entry) (h : env.TelescopeTyped ps Γ xs)
    (hys : xs.map entry = ys.map entry) : env.TelescopeTyped ps Γ' ys := by
  induction xs generalizing Γ Γ' ys with
  | nil =>
    obtain rfl := map_eq_nil_iff.mp hys.symm
    trivial
  | cons x xs ih =>
    cases ys with
    | nil => exact nomatch hys
    | cons y ys =>
      obtain ⟨⟨l, hl⟩, hx, hxs⟩ := h
      rw [map_cons, map_cons, List.cons.injEq] at hys
      obtain ⟨hid, htype⟩ := Prod.mk.inj hys.1
      have hl' := hl.within henv hΓ (hΓ.of_entries hentries) (within_of_entries hentries)
      refine ⟨⟨l, htype ▸ hl'⟩, ?_, ih (scoped_add hΓ hl.in_scope) ?_ hxs hys.2⟩
      · have hids : Γ.ids = Γ'.ids := ids_of_entries hentries
        rw [← hid, ← hids]
        exact hx
      · rw [locals_add, locals_add, map_append, map_append, hentries]
        exact congrArg _ (congrArg (fun p => [p]) hys.1)

/-- A new hypothesis may stand anywhere after those that its type mentions. -/
lemma insert (hΓ : env.ContextTyped ps Γ) (h : env.TelescopeTyped ps Γ (xs ++ ys))
    (htype : env.IsType ps ⟨Γ.locals ++ xs⟩ [] x.type) (hx : x.id ∉ ids ⟨Γ.locals ++ xs⟩)
    (hys : ∀ y ∈ ys, y.id ≠ x.id) : env.TelescopeTyped ps Γ (xs ++ x :: ys) := by
  obtain ⟨hxsTyped, hysTyped⟩ := h.of_append
  have hcontext := hxsTyped.context henv hΓ
  have hadd := hcontext.add henv hx htype
  refine hxsTyped.append ⟨htype, hx, hysTyped.within henv hcontext.inScope hadd.inScope (within_add hx) ?_⟩
  intro y hy hmem
  rw [mem_ids_add] at hmem
  rcases hmem with hmem | hyx
  · exact hysTyped.fresh hy hmem
  · exact hys y hy hyx

/-- Types that do not depend on each other are a telescope in any order. -/
lemma of_forall (hΓ : env.ContextTyped ps Γ) (hxs : ∀ x ∈ xs, env.IsType ps Γ [] x.type)
    (hnodup : (xs.map Local.id).Nodup) (hfresh : ∀ x ∈ xs, x.id ∉ Γ.ids) : env.TelescopeTyped ps Γ xs := by
  induction xs generalizing Γ with
  | nil => trivial
  | cons x xs ih =>
    obtain ⟨hx, hxs⟩ := forall_mem_cons.mp hxs
    obtain ⟨hxΓ, hfresh⟩ := forall_mem_cons.mp hfresh
    obtain ⟨hxx, hnodup⟩ := nodup_cons.mp hnodup
    have hadd := hΓ.add henv hxΓ hx
    refine ⟨hx, hxΓ, ih hadd (fun y hy => ?_) hnodup (fresh_add hfresh hxx)⟩
    exact (hxs y hy).within henv hΓ.inScope hadd.inScope (within_add hxΓ)

lemma hasType_mem (hΓ : env.ContextTyped ps Γ) (h : env.TelescopeTyped ps Γ xs) (hx : x ∈ xs) :
    env.HasType True ps ⟨Γ.locals ++ xs⟩ [] x.term x.type := by
  induction xs generalizing Γ with
  | nil => exact nomatch hx
  | cons y ys ih =>
    obtain ⟨hy, hfresh, hys⟩ := h
    have hadd := hΓ.add henv hfresh hy
    have happend := hys.context henv hadd
    rw [locals_add, append_assoc] at happend
    rcases mem_cons.mp hx with rfl | hx
    · have hterm : env.HasType True ps (Γ.add x) [] x.term x.type := .free (by simp [get?_add])
      refine hterm.within henv hadd.inScope happend.inScope ?_
      have hwithin := within_append fun z hz => hys.fresh hz
      rwa [locals_add, append_assoc] at hwithin
    · have hmem := ih hadd hys hx
      rwa [locals_add, append_assoc] at hmem

end

end TelescopeTyped

/-! ## Replaced telescopes -/

section Replaced

variable {D D' : Context} {s : Replacement}

lemma Puts.within (henv : env.Scoped) (hD : D.Scoped) (hD' : D'.Scoped) (h : Puts env True ps Γ [] D [] s)
    (hle : D.Within D') : Puts env True ps Γ [] D' [] s where
  var _ _ hb := nomatch hb
  free x y hget := (h.free x y hget).within henv hD hD' hle

lemma Puts.of_within (h : Γ.Within D) : Puts env True ps Γ [] D [] .id where
  var _ _ hb := nomatch hb
  free x y hget := by
    obtain ⟨z, hz, htype⟩ := h x y hget
    rw [replace_id, ← htype]
    exact .free hz

/-- A term of its type may be put for one more hypothesis. -/
lemma Puts.put (h : Puts env True ps Γ [] D [] s) (hΓ : Γ.Scoped) (hx : x.id ∉ Γ.ids)
    (htype : x.type.In { free := (· ∈ Γ.ids) } 0) (hv : env.HasType True ps D [] v (x.type.replace s)) :
    Puts env True ps (Γ.add x) [] D [] (s.put x.id v) := by
  -- the types do not see what is put for the new hypothesis
  have hsame {T : Term} (hT : T.In { free := (· ∈ Γ.ids) } 0) : T.replace (s.put x.id v) = T.replace s := by
    refine hT.replace_congr fun y hy => ?_
    have hyx : y ≠ x.id := fun h => hx (h ▸ hy)
    exact if_neg hyx
  refine ⟨fun _ _ hb => (nomatch hb), fun y z hget => ?_⟩
  rw [get?_add] at hget
  split at hget
  · rename_i hxy
    obtain rfl := Option.some.inj hget
    rw [hsame htype, ← hxy, show (s.put x.id v).free x.id = v from if_pos rfl]
    exact hv
  · rename_i hxy
    rw [hsame (hΓ y z hget), show (s.put x.id v).free y = s.free y from if_neg fun h => hxy h.symm]
    exact h.free y z hget

/-- Where typed terms are put for the hypotheses before a telescope, hypotheses of its types may be put for it. -/
lemma TelescopeTyped.replace (henv : env.Scoped) (hΓ : Γ.Scoped) (hD : D.Scoped) (hs : Puts env True ps Γ [] D [] s)
    (hxs : env.TelescopeTyped ps Γ xs)
    (htypes : ys.map Local.type = xs.map fun x => x.type.replace (s.putAll xs (ys.map Local.term)))
    (hnodup : (ys.map Local.id).Nodup) (hfresh : ∀ y ∈ ys, y.id ∉ D.ids) : env.TelescopeTyped ps D ys ∧
      Puts env True ps ⟨Γ.locals ++ xs⟩ [] ⟨D.locals ++ ys⟩ [] (s.putAll xs (ys.map Local.term)) := by
  induction xs generalizing Γ D s ys with
  | nil =>
    obtain rfl := map_eq_nil_iff.mp htypes
    rw [append_nil, append_nil]
    exact ⟨trivial, hs⟩
  | cons x xs ih =>
    cases ys with
    | nil => exact nomatch htypes
    | cons y ys =>
      have hall := hxs
      obtain ⟨⟨l, hl⟩, hx, hxs⟩ := hxs
      obtain ⟨hy, hfresh⟩ := forall_mem_cons.mp hfresh
      obtain ⟨hyy, hnodup⟩ := nodup_cons.mp hnodup
      simp only [map_cons, List.cons.injEq] at htypes
      have htype : x.type.replace (s.putAll (x :: xs) (y.term :: ys.map Local.term)) = x.type.replace s := by
        refine hl.in_scope.replace_congr fun z hz => ?_
        refine s.putAll_free fun hmem => ?_
        obtain ⟨w, hw, rfl⟩ := mem_map.mp hmem
        exact hall.fresh hw hz
      have hyx : y.type = x.type.replace s := htypes.1.trans htype
      have hly := hl.replace henv hΓ hD hs
      rw [← hyx] at hly
      have hD' := scoped_add hD hly.in_scope
      have hterm : env.HasType True ps (D.add y) [] y.term (x.type.replace s) := by
        rw [← hyx]
        exact .free (by simp [get?_add])
      have hs' := (hs.within henv hD hD' (within_add hy)).put hΓ hx hl.in_scope hterm
      obtain ⟨hys, hputs⟩ :=
        ih (scoped_add hΓ hl.in_scope) hD' hs' hxs htypes.2 hnodup (fresh_add hfresh hyy)
      rw [locals_add, locals_add, append_assoc, append_assoc] at hputs
      exact ⟨⟨⟨_, hly⟩, hy, hys⟩, hputs⟩

end Replaced

/-! ## Arguments for a product that is a type -/

/-- A product that is a type is so at arguments for it. -/
lemma ArgsTyped.isType (henv : env.Scoped) (hΓ : Γ.Scoped) (hxs : Local.AllIn S xs) (hm : m.In (S.pushAll xs) 0)
    (hargs : env.ArgsTyped ps Γ Δ s xs as) (htype : env.IsType ps Γ Δ ((m.pis xs).replace s)) :
    env.IsType ps Γ Δ (m.replace (s.putAll xs as)) := by
  induction hargs generalizing S with
  | nil => rwa [pis_nil] at htype
  | @cons s x xs a as ha _ ih =>
    rw [pis_cons] at htype
    obtain ⟨_, hpi⟩ := htype
    obtain ⟨_, l, _, hb, _⟩ := hpi.pi_inv
    have hrest := hb.instantiate henv hΓ ha
    rw [replace_close_instantiate (Term.In.pis hxs.2 hm)] at hrest
    exact ih hxs.2 hm ⟨l, hrest⟩

/-- Arguments for hypotheses whose types, which are types, do not mention any of them. -/
lemma ArgsTyped.of_isType (henv : env.Scoped) (hΓ : Γ.Scoped) {S' : Scope} (hxs : ∀ x ∈ xs, x.type.In S 0)
    (hS : ∀ x ∈ xs, ¬ S.free x.id) (hxs' : Local.AllIn S' xs) (hm : m.In (S'.pushAll xs) 0)
    (htype : env.IsType ps Γ Δ ((m.pis xs).replace s))
    (h : List.Forall₂ (fun a x => env.IsType ps Γ Δ (x.type.replace s) →
      env.HasType True ps Γ Δ a (x.type.replace s)) as xs) : env.ArgsTyped ps Γ Δ s xs as := by
  -- What is put for the earlier hypotheses is not seen by the later types.
  suffices ∀ s' : Replacement, (∀ y, S.free y → s'.free y = s.free y) →
      env.IsType ps Γ Δ ((m.pis xs).replace s') → env.ArgsTyped ps Γ Δ s' xs as from
    this s (fun _ _ => rfl) htype
  clear htype
  induction h generalizing S' with
  | nil => exact fun s' _ _ => .nil s'
  | @cons a x as xs ha _ ih =>
    rw [forall_mem_cons] at hxs hS
    intro s' hs' htype
    have heq : x.type.replace s' = x.type.replace s := hxs.1.replace_congr hs'
    rw [pis_cons] at htype
    obtain ⟨_, hpi⟩ := htype
    obtain ⟨l₁, l₂, hx, hb, _⟩ := hpi.pi_inv
    have ha' : env.HasType True ps Γ Δ a (x.type.replace s') := heq ▸ ha (heq ▸ ⟨l₁, hx⟩)
    have hrest := hb.instantiate henv hΓ ha'
    rw [replace_close_instantiate (Term.In.pis hxs'.2 hm)] at hrest
    refine .cons ha' (ih hxs.2 hS.2 hxs'.2 hm _ (fun y hy => ?_) ⟨l₂, hrest⟩)
    have hyx : y ≠ x.id := fun h => hS.1 (h ▸ hy)
    exact (if_neg hyx).trans (hs' y hy)

lemma ArgsTyped.self (hxs : ∀ x ∈ xs, env.HasType True ps Γ Δ x.term x.type) :
    env.ArgsTyped ps Γ Δ .id xs (xs.map Local.term) := by
  induction xs with
  | nil => exact .nil _
  | cons x xs ih =>
    obtain ⟨hx, hxs⟩ := forall_mem_cons.mp hxs
    have hput : Replacement.id.putAll [x] ([x].map Local.term) = .id := Replacement.putAll_own fun _ _ => rfl
    refine .cons (by rwa [replace_id]) ?_
    show env.ArgsTyped ps Γ Δ (Replacement.id.putAll [x] ([x].map Local.term)) xs (xs.map Local.term)
    rw [hput]
    exact ih hxs

/-- A function of a product over hypotheses of the context, applied to these. -/
lemma HasType.apply_self (hxs : Local.AllIn S xs) (hm : m.In (S.pushAll xs) 0)
    (hf : env.HasType True ps Γ Δ f (m.pis xs)) (hself : ∀ x ∈ xs, env.HasType True ps Γ Δ x.term x.type) :
    env.HasType True ps Γ Δ (f.apply (xs.map Local.term)) m := by
  have hf' : env.HasType True ps Γ Δ f ((m.pis xs).replace .id) := by rwa [replace_id]
  have happ := hf'.apply_pis hxs hm (.self hself)
  rwa [Replacement.putAll_own fun _ _ => rfl, replace_id] at happ

/-! ## Instances of a telescope -/

/-- The hypotheses `ys` have types convertible to those of a telescope, where they are put for the hypotheses before. -/
inductive TelescopeInstance (env : Env) : Replacement → (xs ys : List Local) → Prop
  | nil (s : Replacement) : TelescopeInstance env s [] []
  | cons {s : Replacement} {x y : Local} {xs ys : List Local} : env.Conv y.type (x.type.replace s) →
    TelescopeInstance env (s.put x.id y.term) xs ys → TelescopeInstance env s (x :: xs) (y :: ys)

namespace TelescopeInstance

variable {s : Replacement} {xs ys : List Local}
variable {S : Scope}

section

variable (h : env.TelescopeInstance s xs ys)
include h

lemma length_eq : xs.length = ys.length := by
  induction h with
  | nil => rfl
  | cons _ _ ih => rw [length_cons, length_cons, ih]

lemma append {xs' ys' : List Local}
    (h' : env.TelescopeInstance (s.putAll xs (ys.map Local.term)) xs' ys') :
    env.TelescopeInstance s (xs ++ xs') (ys ++ ys') := by
  induction h with
  | nil => exact h'
  | cons hy _ ih => exact .cons hy (ih h')

lemma get {i : Nat} {y : Local} (hx : xs[i]? = some x) (hy : ys[i]? = some y) :
    env.Conv y.type (x.type.replace (s.putAll (xs.take i) ((ys.take i).map Local.term))) := by
  induction h generalizing i with
  | nil => simp at hx
  | cons hy' _ ih =>
    cases i with
    | zero =>
      obtain rfl := by simpa using hx
      obtain rfl := by simpa using hy
      exact hy'
    | succ i => exact ih (by simpa using hx) (by simpa using hy)

end

/-- Only what is put for the hypotheses before the telescope matters. -/
lemma congr (hxs : Local.AllIn S xs) {s' : Replacement} (hs : ∀ z, S.free z → s'.free z = s.free z)
    (h : env.TelescopeInstance s xs ys) : env.TelescopeInstance s' xs ys := by
  induction h generalizing S s' with
  | nil => exact .nil s'
  | @cons s x y xs ys hy _ ih =>
    have heq : x.type.replace s' = x.type.replace s := hxs.1.replace_congr hs
    refine .cons (heq ▸ hy) (ih hxs.2 fun z hz => ?_)
    show (if z = x.id then y.term else s'.free z) = if z = x.id then y.term else s.free z
    split
    · rfl
    · rename_i hzx
      exact hs z (hz.resolve_right hzx)

/-- Hypotheses for those of a telescope whose types do not mention any of them. -/
lemma of_forall₂ (hxs : ∀ x ∈ xs, x.type.In S 0) (hS : ∀ x ∈ xs, ¬ S.free x.id)
    (h : List.Forall₂ (fun y x => env.Conv y.type (x.type.replace s)) ys xs) : env.TelescopeInstance s xs ys := by
  suffices ∀ s' : Replacement, (∀ z, S.free z → s'.free z = s.free z) → env.TelescopeInstance s' xs ys from
    this s fun _ _ => rfl
  induction h with
  | nil => exact fun s' _ => .nil s'
  | @cons y x ys xs hy _ ih =>
    rw [forall_mem_cons] at hxs hS
    intro s' hs'
    have heq : x.type.replace s' = x.type.replace s := hxs.1.replace_congr hs'
    refine .cons (heq ▸ hy) (ih hxs.2 hS.2 _ fun z hz => ?_)
    have hzx : z ≠ x.id := fun h => hS.1 (h ▸ hz)
    exact (if_neg hzx).trans (hs' z hz)

/-- Hypotheses whose types are those of the telescope, with all of them put for its hypotheses. -/
lemma of_types (hxs : Local.AllIn S xs) (hnodup : (xs.map Local.id).Nodup) (hS : ∀ x ∈ xs, ¬ S.free x.id)
    (h : ys.map Local.type = xs.map fun x => x.type.replace (s.putAll xs (ys.map Local.term))) :
    env.TelescopeInstance s xs ys := by
  induction xs generalizing S s ys with
  | nil =>
    obtain rfl := map_eq_nil_iff.mp h
    exact .nil s
  | cons x xs ih =>
    cases ys with
    | nil => simp at h
    | cons y ys =>
      obtain ⟨hx, hS⟩ := forall_mem_cons.mp hS
      obtain ⟨hxx, hnodup⟩ := nodup_cons.mp hnodup
      simp only [map_cons, List.cons.injEq] at h
      have hfresh : ∀ z ∈ xs, ¬ (S.push x.id).free z.id := by
        rintro z hz (hfree | heq)
        · exact hS z hz hfree
        · exact hxx (heq ▸ mem_map_of_mem hz)
      have htype : x.type.replace (s.putAll (x :: xs) (y.term :: ys.map Local.term)) = x.type.replace s := by
        refine hxs.1.replace_congr fun z hz => ?_
        refine s.putAll_free fun hmem => ?_
        rcases mem_cons.mp hmem with rfl | hmem
        · exact hx hz
        · obtain ⟨w, hw, rfl⟩ := mem_map.mp hmem
          exact hS w hw hz
      exact .cons (h.1.trans htype ▸ .refl _) (ih hxs.2 hnodup hfresh h.2)

section Typed

variable (henv : env.WellTyped) (hiota : env.IotaTyped) (hΓ : env.ContextTyped ps Γ) {S : Scope} {m : Term}
include henv hiota hΓ

/-- The hypotheses are arguments for the telescope, if the product over it is a type. -/
lemma args (h : env.TelescopeInstance s xs ys) (hxs : Local.AllIn S xs) (hm : m.In (S.pushAll xs) 0)
    (hys : env.TelescopeTyped ps Γ ys) (htype : env.IsType ps Γ [] ((m.pis xs).replace s)) :
    env.ArgsTyped ps ⟨Γ.locals ++ ys⟩ [] s xs (ys.map Local.term) := by
  induction h generalizing Γ S with
  | nil s => exact .nil s
  | @cons s x y xs ys hy _ ih =>
    have hcontext := hys.context henv.inScope hΓ
    have hterm := hys.hasType_mem henv.inScope hΓ mem_cons_self
    have hwithin := within_append fun z hz => hys.fresh hz
    obtain ⟨hyType, hfresh, hys⟩ := hys
    rw [pis_cons] at htype
    obtain ⟨hx, hopened⟩ := htype.opened henv hiota hΓ (.refl _)
    have hrest := hopened y hfresh hy hyType
    rw [replace_close_instantiate (Term.In.pis hxs.2 hm)] at hrest
    have hargs := ih (hΓ.add henv.inScope hfresh hyType) hxs.2 hm hys hrest
    rw [locals_add, append_assoc] at hargs
    exact .cons (hterm.conv_type hy (hx.within henv.inScope hΓ.inScope hcontext.inScope hwithin)) hargs

lemma abs (h : env.TelescopeInstance s xs ys) (hxs : Local.AllIn S xs) (hm : m.In (S.pushAll xs) 0)
    (hys : env.TelescopeTyped ps Γ ys) (htype : env.IsType ps Γ [] ((m.pis xs).replace s))
    (hb : env.HasType True ps ⟨Γ.locals ++ ys⟩ [] b (m.replace (s.putAll xs (ys.map Local.term)))) :
    env.HasType True ps Γ [] (b.abs ys) ((m.pis xs).replace s) := by
  induction h generalizing Γ S with
  | nil =>
    rw [append_nil] at hb
    rwa [abs_nil, pis_nil]
  | @cons s x y xs ys hy _ ih =>
    obtain ⟨⟨l, hyType⟩, hfresh, hys⟩ := hys
    rw [pis_cons] at htype
    have hrest := (htype.opened henv hiota hΓ (.refl _)).2 y hfresh hy ⟨l, hyType⟩
    obtain ⟨_, hpi⟩ := htype
    have hclosed := hpi.in_scope.2
    have hΓ' := hΓ.add henv.inScope hfresh ⟨l, hyType⟩
    rw [replace_close_instantiate (Term.In.pis hxs.2 hm)] at hrest
    have hbody := ih hΓ' hxs.2 hm hys hrest (by rwa [locals_add, append_assoc])
    have habs := hbody.abstract henv.inScope hΓ.inScope hfresh hyType.in_scope
    -- the new hypothesis occurs in the body only where it was put for that of the telescope
    rw [← replace_close_instantiate (Term.In.pis hxs.2 hm), Local.term,
      replace_abstracted hclosed hfresh, ← close_eq_abstracted hbody.in_scope] at habs
    rw [abs_cons, pis_cons]
    exact (HasType.lam hyType habs).conv_type (.pi hy (.refl _)) ⟨_, hpi⟩

end Typed

end TelescopeInstance

end Env

end ProofAssistant
