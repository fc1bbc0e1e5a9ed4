import ProofAssistant.Proofs.Dependence
import ProofAssistant.Proofs.ReadOffTypes

/-!
# Accepted contexts, rearranged

The checker finds the type of a hypothesis among the hypotheses before it, but only those matter that the type mentions
(`Env.Infers.agree`). So the hypotheses of an accepted context are a typed telescope in every order in which each comes
after those that its type mentions (`Env.ContextAccepted.rearranged`).
-/

namespace ProofAssistant

open List Context Scope

lemma Context.within_of_subset {Γ Γ' : Context} (hnodup : Γ'.ids.Nodup) (h : ∀ x ∈ Γ.locals, x ∈ Γ'.locals) :
    Γ.Within Γ' := by
  intro x y hget
  obtain rfl : y.id = x := by simpa using find?_some hget
  have hy : y ∈ Γ.locals := mem_reverse.mp (mem_of_find?_eq_some hget)
  exact ⟨y, get?_of_mem hnodup (h y hy), rfl⟩

namespace Env

variable {env : Env} {ps : List Name}
variable {Γ : Context} {xs : List Local}

/-- Only the hypotheses that a term mentions matter for its type. -/
lemma Infers.agree {next : Nat} {m T : Term} (h : env.Infers ps next Γ m T) {P : Id → Prop} {k : Nat}
    (hm : m.In { free := P } k) {Γ' : Context} (hget : ∀ x, P x → Γ'.get? x = Γ.get? x) :
    env.Infers ps next Γ' m T := by
  -- under a binder, the hypothesis that the body is opened with is one more on which both contexts agree
  have hopened {next k : Nat} {Γ Γ' : Context} {P : Id → Prop} (x : Name) (t : Term) {b : Term}
      (hb : b.In { free := P } (k + 1)) (hget : ∀ y, P y → Γ'.get? y = Γ.get? y) :
      (b.instantiate (Local.new next x t).term).In { free := fun y => P y ∨ y = (Local.new next x t).id } k ∧
        ∀ y, P y ∨ y = (Local.new next x t).id →
          (Γ'.add (.new next x t)).get? y = (Γ.add (.new next x t)).get? y := by
    have hle : Scope.Le { free := P } { free := fun y => P y ∨ y = (Local.new next x t).id } :=
      { free := fun _ hy => .inl hy }
    refine ⟨(hb.widen hle).instantiate (.inr rfl), fun y hy => ?_⟩
    rw [get?_add, get?_add]
    split
    · rfl
    · rename_i hne
      exact hget y (hy.resolve_right fun heq => hne heq.symm)
  induction h generalizing P k Γ' with
  | free hx => exact .free ((hget _ hm).trans hx)
  | sort hl => exact .sort hl
  | const hd hkind hlen hls => exact .const hd hkind hlen hls
  | ctor ht hk hlen hls => exact .ctor ht hk hlen hls
  | app _ hwhnf _ htest ihf iha => exact .app (ihf hm.1 hget) hwhnf (iha hm.2 hget) htest
  | @lam _ _ _ x t _ _ _ _ _ hwhnf _ iht ihb =>
    obtain ⟨hb, hget'⟩ := hopened x t hm.2 hget
    exact .lam (iht hm.1 hget) hwhnf (ihb hb hget')
  | @pi _ _ _ _ x _ t _ _ _ _ _ _ hwhnf _ hwhnf' iht ihb =>
    obtain ⟨hb, hget'⟩ := hopened x t hm.2 hget
    exact .pi (iht hm.1 hget) hwhnf (ihb hb hget') hwhnf'

namespace ContextAccepted

variable {Γ : Context}

lemma nodup (hΓ : env.ContextAccepted ps Γ) : Γ.ids.Nodup := by
  induction hΓ with
  | nil => exact .nil
  | add _ hfresh _ _ _ ih =>
    rw [ids_add]
    exact nodup_append.mpr ⟨ih, nodup_singleton _, fun a ha b hb => by
      obtain rfl := mem_singleton.mp hb
      exact fun hab => hfresh (hab ▸ ha)⟩

lemma allIn (hΓ : env.ContextAccepted ps Γ) : Local.AllIn .ground Γ.locals := by
  induction hΓ with
  | nil => trivial
  | @add Γ x _ _ _ _ _ _ htype hsort ih =>
    obtain ⟨S, _, hS, _⟩ := infersSort_of_inferSort hsort
    refine Local.allIn_append.mpr ⟨ih, (hS.in_scope htype).widen ?_, trivial⟩
    rw [pushAll_eq]
    exact le_of_free_hole (fun _ hy => .inr hy) fun _ hh => hh

lemma resolved (hΓ : env.ContextAccepted ps Γ) {x : Local} (hx : x ∈ Γ.locals) : x.type.In env.resolved 0 := by
  induction hΓ with
  | nil => exact nomatch hx
  | @add Γ y _ _ _ _ _ _ htype hsort ih =>
    obtain ⟨S, _, hS, _⟩ := infersSort_of_inferSort hsort
    rcases mem_append.mp hx with hx | hx
    · exact ih hx
    · obtain rfl := mem_singleton.mp hx
      exact hS.resolved htype

end ContextAccepted

/-- A type that is accepted in a context is one over hypotheses of it that include those it mentions, as a typed
telescope. -/
lemma InfersSort.rearranged (henv : env.Supports True) (hΓ : env.ContextAccepted ps Γ) {next : Nat}
    (hnext : ∀ x ∈ Γ.ids, x.number < next) (hxs : env.TelescopeTyped ps {} xs) (hnodup : (xs.map Local.id).Nodup)
    (hmem : ∀ y ∈ xs, y ∈ Γ.locals) {m : Term} {l : Level} (h : env.InfersSort ps next Γ m l) {k : Nat}
    (hm : m.In { free := fun x => x.number < next } k) (hocc : m.In { free := (· ∈ xs.map Local.id) } 0) :
    env.HasType True ps ⟨xs⟩ [] m (.sort l) := by
  have hget : ∀ x ∈ xs.map Local.id, Context.get? ⟨xs⟩ x = Γ.get? x := by
    intro x hx
    obtain ⟨y, hy, rfl⟩ := List.mem_map.mp hx
    rw [get?_of_mem hnodup hy, get?_of_mem hΓ.nodup (hmem y hy)]
  have hempty : env.ContextTyped ps {} := fun _ _ hget => nomatch hget
  have htyped : env.ContextTyped ps ⟨xs⟩ := hxs.context henv.inScope hempty
  have hfor : env.ContextFor True ps next ⟨xs⟩ := by
    refine ⟨fun x y hy => ?_, fun _ => htyped, fun x hx => ?_⟩
    · -- the type is in scope in the whole context, and mentions only some of its hypotheses
      have hyΓ := (hget x (mem_ids_of_get? hy)).symm.trans hy
      exact ((hΓ.contextFor henv hnext).inScope x y hyΓ).of_forall_containsFree fun z hz =>
        (htyped.inScope x y hy).free_of_containsFree hz
    · obtain ⟨y, hy, rfl⟩ := List.mem_map.mp hx
      exact hnext _ (List.mem_map_of_mem (hmem y hy))
  obtain ⟨S, fuel, hS, hwhnf⟩ := h
  exact InfersSort.hasType henv ⟨S, fuel, hS.agree hocc hget, hwhnf⟩ hfor hm

/-- The hypotheses of an accepted context that are among `xs`, where each comes after those that it mentions. -/
lemma ContextAccepted.filtered (henv : env.Supports True) (hΓ : env.ContextAccepted ps Γ)
    (hxs : Local.AllIn .ground xs) (hnodup : (xs.map Local.id).Nodup) (hmem : ∀ y ∈ xs, y.id ∈ Γ.ids → y ∈ Γ.locals) :
    env.TelescopeTyped ps {} (xs.filter fun y => y.id ∈ Γ.ids) := by
  induction hΓ with
  | nil =>
    rw [filter_eq_nil_iff.mpr fun y _ => by simp [ids]]
    trivial
  | @add Γ x fuel next l hΓ hfresh hnext htype hsort ih =>
    -- of the hypotheses other than `x`, the same are in both contexts
    have hids {y : Local} (hy : y ∈ xs) (hyx : y ≠ x) : y.id ∈ (Γ.add x).ids ↔ y.id ∈ Γ.ids := by
      refine ⟨fun h => ?_, fun h => by simpa using .inl h⟩
      rcases mem_append.mp (hmem y hy h) with h | h
      · exact mem_map_of_mem h
      · exact absurd (mem_singleton.mp h) hyx
    have hold : ∀ y ∈ xs, y.id ∈ Γ.ids → y ∈ Γ.locals := by
      intro y hy h
      rcases mem_append.mp (hmem y hy (by simpa using .inl h)) with h' | h'
      · exact h'
      · obtain rfl := mem_singleton.mp h'
        exact absurd h hfresh
    have ih := ih hold
    by_cases hx : x ∈ xs
    · obtain ⟨before, after, rfl⟩ := append_of_mem hx
      obtain ⟨hbefore, hbody⟩ := Local.allIn_append.mp hxs
      rw [map_append] at hnodup
      obtain ⟨hnodupBefore, hnodupAfter, hdisjoint⟩ := nodup_append.mp hnodup
      have hneBefore : ∀ y ∈ before, y ≠ x := fun y hy heq =>
        hdisjoint _ (mem_map_of_mem hy) x.id mem_cons_self (congrArg Local.id heq)
      have hneAfter : ∀ y ∈ after, y.id ≠ x.id := fun y hy heq =>
        (nodup_cons.mp hnodupAfter).1 (heq ▸ mem_map_of_mem hy)
      rw [filter_append, filter_cons_of_neg (by simpa using hfresh)] at ih
      rw [filter_append, filter_cons_of_pos (by simp),
        filter_congr fun y hy => decide_eq_decide.mpr (hids (mem_append_left _ hy) (hneBefore y hy)),
        filter_congr fun y hy => decide_eq_decide.mpr (hids
          (mem_append_right _ (mem_cons_of_mem _ hy)) fun heq => hneAfter y hy (congrArg Local.id heq))]
      have hempty : env.ContextTyped ps {} := fun _ _ hget => by simp at hget
      have hkept : (before.filter fun y => y.id ∈ Γ.ids).Sublist before := filter_sublist
      have hsort := infersSort_of_inferSort hsort
      have hocc : x.type.In { free := (· ∈ (before.filter fun y => y.id ∈ Γ.ids).map Local.id) } 0 := by
        obtain ⟨S, _, hS, _⟩ := hsort
        have hin := hS.in_scope htype
        have hall : x.type.In {} 0 := hin.widen (le_of_free fun _ _ => trivial)
        refine hall.of_forall_containsFree fun z hz => ?_
        obtain hground | hz' := (pushAll_free _ _ _).mp (hbody.1.free_of_containsFree hz)
        · exact hground.elim
        · obtain ⟨y, hy, rfl⟩ := mem_map.mp hz'
          exact mem_map_of_mem (mem_filter.mpr ⟨hy, decide_eq_true (hin.free_of_containsFree hz)⟩)
      refine TelescopeTyped.insert henv.inScope hempty ih ⟨l, ?_⟩ ?_ fun y hy => hneAfter y (mem_filter.mp hy).1
      · exact hsort.rearranged henv hΓ hnext ih.of_append.1 (hnodupBefore.sublist (hkept.map _))
          (fun y hy => hold y (mem_append_left _ (hkept.subset hy)) (by simpa using (mem_filter.mp hy).2))
          htype hocc
      · intro hmem
        obtain ⟨y, hy, hyx⟩ := mem_map.mp hmem
        exact hdisjoint _ (mem_map_of_mem (hkept.subset hy)) x.id mem_cons_self hyx
    · rwa [filter_congr fun y hy => decide_eq_decide.mpr (hids hy fun heq => hx (heq ▸ hy))]

/-- Hypotheses of an accepted context, in an order in which each comes after those that it mentions. -/
lemma ContextAccepted.rearranged (henv : env.Supports True) (hΓ : env.ContextAccepted ps Γ)
    (hxs : Local.AllIn .ground xs) (hnodup : (xs.map Local.id).Nodup) (hmem : ∀ y ∈ xs, y ∈ Γ.locals) :
    env.TelescopeTyped ps {} xs := by
  have hall : ∀ y ∈ xs, decide (y.id ∈ Γ.ids) = true := fun y hy => decide_eq_true (mem_map_of_mem (hmem y hy))
  have hfiltered := hΓ.filtered henv hxs hnodup fun y hy _ => hmem y hy
  rwa [filter_eq_self.mpr hall] at hfiltered

end Env

end ProofAssistant
