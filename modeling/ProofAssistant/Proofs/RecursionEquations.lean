import ProofAssistant.Proofs.FreshHypotheses

/-!
# Equations of a function defined by recursion

`Env.DefinedBy` says that a constant unfolds to a recursor on one of its arguments and on those after it. On a
constructor it computes as the minor premise of that constructor, with the recursor for the induction hypotheses
(`Env.DefinedBy.computes_minor`). If the minor premise was made from a right-hand side by replacing recursive calls,
this is the right-hand side with the constant for the function (`Env.DefinedBy.computes_rhs`).
-/

namespace ProofAssistant

open List Replacement Term

variable {fields : List Local} {k : Constructor}

lemma calls_terms (k : Constructor) (R : Term) (fields : List Local) :
    k.calls R (fields.map Local.term) = (k.recursiveFields fields).map fun x => R.app x.term := by
  rw [Constructor.calls, Constructor.recursiveFields, zip_map_left, filter_map, map_map, map_map]
  rfl

lemma mem_of_mem_recursiveFields {x : Local}
    (hx : x ∈ k.recursiveFields fields) : x ∈ fields := by
  obtain ⟨p, hp, rfl⟩ := mem_map.mp hx
  exact (of_mem_zip (mem_filter.mp hp).1).1

/-- What a minor premise is given: the fields, the recursor for the induction hypotheses, and the arguments
after. -/
def minorArgs (R : Term) (fields recursive after : List Local) : List Term :=
  fields.map Local.term ++ recursive.map (fun x => R.app x.term) ++ after.map Local.term

namespace Env

open InductiveSpec

/-- The constant `F` is defined by the recursor `R` on its argument `major`; the arguments after it are passed on. -/
structure DefinedBy (env : Env) (f : Name) (F R : Term) (before : List Local) (major : Local)
    (after : List Local) : Prop where
  admits : env.Admits noFree
  unfolds : env.Computes f F
    (((R.app major.term).apply (after.map Local.term)).abs (before ++ [major] ++ after))
  closed : F.In {} 0
  recursor : R.In (noFree.pushAll before) 0
  telescope : Local.AllIn noFree (before ++ [major] ++ after)
  nodup : ((before ++ [major] ++ after).map Local.id).Nodup

namespace DefinedBy

variable {env : Env} {f : Name} {F R : Term} {before after : List Local} {major : Local}

lemma recursor_closed (h : env.DefinedBy f F R before major after) : R.In {} 0 := by
  have hR := h.recursor
  rw [Scope.pushAll_eq] at hR
  exact hR.widen { free := fun _ _ => trivial }

/-- The arguments after are passed on, so that the constant is the recursor on those before. -/
lemma computes_call (h : env.DefinedBy f F R before major after) (m : Term) :
    env.Computes f (F.apply (before.map Local.term ++ [m])) (R.app m) := by
  obtain ⟨hxs, _⟩ := Local.allIn_append.mp h.telescope
  have hnodup := h.nodup
  rw [List.map_append, List.nodup_append] at hnodup
  obtain ⟨hleft, hright, hdisjoint⟩ := hnodup
  have hg : (R.app major.term).In (noFree.pushAll (before ++ [major])) 0 := by
    rw [Scope.pushAll_append]
    exact ⟨h.recursor.widen (Scope.le_pushAll _ _), .inr rfl⟩
  have hfree : ∀ x ∈ after, ¬ (noFree.pushAll (before ++ [major])).free x.id := by
    intro x hx hmem
    rcases (Scope.pushAll_free _ _ _).mp hmem with hx' | hx'
    · exact hx'
    · exact hdisjoint _ hx' _ (List.mem_map_of_mem hx) rfl
  have hvalue : env.Computes f F ((R.app major.term).abs (before ++ [major])) := by
    have hunfolds := h.unfolds
    rw [Term.abs_append] at hunfolds
    exact hunfolds.trans (.abs h.admits (.abs_eta h.admits hg hfree hright) _)
  have hbeta : env.Computes f (((R.app major.term).abs (before ++ [major])).apply (before.map Local.term ++ [m])) _ :=
    .abs_apply hxs hg (by simp)
  have hput : (R.app major.term).replace
      (Replacement.id.putAll (before ++ [major]) (before.map Local.term ++ [m])) = R.app m := by
    rw [Replacement.putAll_append _ (by simp), Replacement.putAll_own fun _ _ => rfl, Term.replace]
    have hmajor : major.id ∉ before.map Local.id := by
      rw [List.map_append, List.nodup_append] at hleft
      intro hmem
      exact hleft.2.2 _ hmem _ (by simp) rfl
    have hR : R.replace (Replacement.id.putAll [major] [m]) = R := by
      refine h.recursor.replace_eq_self fun x hx => ?_
      rcases (Scope.pushAll_free _ _ _).mp hx with hx | hx
      · exact hx.elim
      · exact if_neg fun (hxm : x = major.id) => hmajor (hxm ▸ hx)
    rw [hR]
    exact congrArg R.app (if_pos rfl)
  rw [hput] at hbeta
  exact (hvalue.apply_left _).trans hbeta

/-- On a constructor, the constant is the minor premise on the fields, on the recursor for the induction
hypotheses, and on the arguments after. -/
lemma computes_minor (h : env.DefinedBy f F R before major after) {c : Name} {ls ls' : List Level}
    {args params : List Term} {t : InductiveType} {i : Nat} {n : Name}
    (hR : R = (const c ls).apply args) (hrec : env.recursorOf? c = some t) (hk : t.ctors[i]? = some k)
    (hargs : args.length = majorIndex t) (hparams : params.length = t.numParams)
    {ihs after' : List Local} (hfields : fields.length = k.numFields)
    (hihs : ihs.length = (k.recursiveFields fields).length) {minor : Term}
    (hminor : args[t.numParams + 1 + i]? = some (minor.abs (fields ++ ihs ++ after')))
    (hxs : Local.AllIn (noFree.pushAll before) (fields ++ ihs ++ after'))
    (hin : minor.In ((noFree.pushAll before).pushAll (fields ++ ihs ++ after')) 0) : env.Computes f
      (F.apply (before.map Local.term ++ [(ctor t.name i n ls').apply (params ++ fields.map Local.term)] ++
        after'.map Local.term)) (minor.replace (Replacement.id.putAll (fields ++ ihs ++ after')
        (minorArgs R fields (k.recursiveFields fields) after'))) := by
  have hiota : env.Contracts (.app ((const c ls).apply args)
      ((ctor t.name i n ls').apply (params ++ fields.map Local.term))) _ :=
    .iota hrec hk hargs hparams (by simpa using hfields) hminor
  rw [← hR, calls_terms] at hiota
  have hcontract : env.Computes f _ _ := .contract hiota fun _ _ he => nomatch he
  rw [apply_append]
  refine ((h.computes_call _).apply_left _).trans ((hcontract.apply_left _).trans ?_)
  rw [← apply_append]
  exact .abs_apply hxs hin (by simp [hihs])

/-- The minor premise that was made from a right-hand side, with the recursor for the induction hypotheses, is
that right-hand side with the constant for the function. -/
lemma computes_rhs (h : env.DefinedBy f F R before major after) {c : Calls}
    (hfixed : c.fixed = before.map Local.term) {ihs after' recursive : List Local}
    (hrecursive : ∀ x ∈ recursive, x ∈ fields) (hihs : ihs.length = recursive.length)
    (hhypotheses : c.hypotheses = (recursive.map Local.id).zip (ihs.map Local.term))
    (hnodup : ((fields ++ ihs ++ after').map Local.id).Nodup)
    (hbefore : ∀ x ∈ before, x.id ∉ (fields ++ ihs ++ after').map Local.id)
    (hself : c.function ∉ (before ++ fields ++ after').map Local.id) {rhs minor : Term}
    (hreplaced : c.Replaced rhs minor)
    (hrhs : rhs.In ((noFree.pushAll (before ++ fields ++ after')).push c.function) 0) : env.Computes f
      (minor.replace (Replacement.id.putAll (fields ++ ihs ++ after') (minorArgs R fields recursive after')))
      (rhs.replace (.listed [(c.function, F)])) := by
  have hR := h.recursor_closed
  have hclosed : ∀ a ∈ minorArgs R fields recursive after', a.In {} 0 := by
    intro a ha
    simp only [minorArgs, mem_append, mem_map] at ha
    rcases ha with (⟨x, _, rfl⟩ | ⟨x, _, rfl⟩) | ⟨x, _, rfl⟩
    · trivial
    · exact ⟨hR, trivial⟩
    · trivial
  have hs := closed_id.putAll hclosed (fields ++ ihs ++ after')
  have hs' : (listed [(c.function, F)]).Closed := closed_listed (by simpa using h.closed)
  have hlen : (fields ++ ihs ++ after').length = (minorArgs R fields recursive after').length := by
    simp [minorArgs, hihs]
  have hterms := putAll_terms .id hlen hnodup
  have hother : ∀ x ∈ before, (Replacement.id.putAll (fields ++ ihs ++ after')
      (minorArgs R fields recursive after')).free x.id = x.term :=
    fun x hx => putAll_free _ (hbefore x hx)
  -- What is put for the fields, the induction hypotheses and the arguments after is known from here on.
  generalize Replacement.id.putAll (fields ++ ihs ++ after') _ = s at hs hterms hother ⊢
  simp only [map_append, minorArgs] at hterms
  obtain ⟨hterms, hafterTerms⟩ := append_inj' hterms (by simp)
  obtain ⟨hfieldTerms, hihTerms⟩ := append_inj' hterms (by simp [hihs])
  have hkept {xs : List Local} (hxs : (xs.map Local.term).map (·.replace s) = xs.map Local.term) {x : Id}
      (hx : x ∈ xs.map Local.id) : s.free x = .free x := by
    obtain ⟨y, hy, rfl⟩ := mem_map.mp hx
    rw [map_map, map_inj_left] at hxs
    exact hxs y hy
  have hfree : ∀ x, ((noFree.pushAll (before ++ fields ++ after')).push c.function).free x → x ≠ c.function →
      s.free x = (listed [(c.function, F)]).free x := by
    intro x hx hne
    have hlisted : (listed [(c.function, F)]).free x = .free x := by
      simp [listed, lookup_cons, beq_eq_false_iff_ne.mpr hne]
    rw [hlisted]
    rcases hx with hx | hx
    · rcases (Scope.pushAll_free _ _ _).mp hx with hx | hx
      · exact hx.elim
      · simp only [map_append, mem_append] at hx
        rcases hx with (hx | hx) | hx
        · obtain ⟨y, hy, rfl⟩ := mem_map.mp hx
          exact hother y hy
        · exact hkept hfieldTerms hx
        · exact hkept hafterTerms hx
    · exact absurd hx hne
  refine Calls.Replaced.computes hs.up hs'.up (fun x ih hlookup => ?_) (fun i => hs.var i) hfree hreplaced hrhs
  -- an induction hypothesis is a call of the recursor, and so is the call of the constant
  have hmem := mem_of_lookup_eq_some (hhypotheses ▸ hlookup)
  obtain ⟨j, hj⟩ := mem_iff_getElem?.mp hmem
  rw [getElem?_zip_eq_some, getElem?_map, getElem?_map] at hj
  obtain ⟨hx, hih⟩ := hj
  obtain ⟨y, hy, rfl⟩ := Option.map_eq_some_iff.mp hx
  obtain ⟨z, hz, rfl⟩ := Option.map_eq_some_iff.mp hih
  have hcall : z.term.replace s = R.app y.term := by
    have hget := congrArg (·[j]?) hihTerms
    simpa [hz, hy] using hget
  have hconstant : ((Term.free c.function).apply (c.fixed ++ [.free y.id])).replace (.listed [(c.function, F)]) =
      F.apply (before.map Local.term ++ [y.term]) := by
    have hput : (listed [(c.function, F)]).free c.function = F := by
      simp [listed]
    have hsame : ∀ w ∈ before ++ fields, w.term.replace (.listed [(c.function, F)]) = w.term := by
      intro w hw
      refine (hfree w.id ?_ ?_).symm.trans ?_
      · refine .inl ((Scope.pushAll_free _ _ _).mpr (.inr ?_))
        rw [map_append]
        exact mem_append_left _ (mem_map_of_mem hw)
      · rintro he
        refine hself (he ▸ ?_)
        rw [map_append]
        exact mem_append_left _ (mem_map_of_mem hw)
      · rcases mem_append.mp hw with hw | hw
        · exact hother w hw
        · exact hkept hfieldTerms (mem_map_of_mem hw)
    rw [replace_apply, map_append, hfixed, map_map]
    congr 1
    refine congrArg₂ (· ++ ·) (map_congr_left fun w hw => hsame w (mem_append_left _ hw)) ?_
    exact congrArg (fun m => [m])
      (hsame y (mem_append_right _ (hrecursive y (mem_of_getElem? hy))))
  rw [hcall, hconstant]
  exact (h.computes_call _).symm

end DefinedBy

end Env

end ProofAssistant
