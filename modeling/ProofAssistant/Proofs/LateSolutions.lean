import ProofAssistant.Proofs.EliminationSoundness
import ProofAssistant.Proofs.IteratedBeta

/-!
# Solutions that come late

The hypotheses that the hole of a goal is applied to may become indices before the goal is solved, in a term that binds
them. It makes no difference whether solutions are put in before or after that (`Metas.instantiate_close`), and the
solution gets whatever has become of the hypotheses (`Metas.instantiate_pending`).
-/

namespace ProofAssistant

open List Term

namespace Term

variable {value : Id → Option Term} {xs : List Id} {S : Scope} {m : Term}

lemma resolveHoles_close (hvalue : ∀ h v, value h = some v → ∀ k, v.close xs k = v) (depth : Nat) (m : Term) (k : Nat) :
    (m.close xs k).resolveHoles value depth = (m.resolveHoles value depth).close xs k := by
  induction depth generalizing m k with
  | zero => rfl
  | succ depth ih =>
    refine fillHolesApp_close (fun h v hv k => ?_) m k []
    obtain ⟨w, hw, rfl⟩ := Option.map_eq_some_iff.mp hv
    rw [← ih, hvalue h w hw]

lemma exists_abs_eq_lams (xs : List Local) (m : Term) :
    ∃ bs, bs.length = xs.length ∧ m.abs xs = lams bs (m.close (xs.map Local.id) 0) := by
  suffices h : ∀ (before : List Id) (body : Term), ∃ bs, bs.length = xs.length ∧
      bindAll (fun x t b => .lam x.name t b) before xs body = lams bs body from h [] _
  induction xs with
  | nil => exact fun _ _ => ⟨[], rfl, rfl⟩
  | cons x xs ih =>
    intro before body
    obtain ⟨bs, hlen, heq⟩ := ih (before ++ [x.id]) body
    exact ⟨(x.name, x.type.close before 0) :: bs, by simp [hlen], by rw [bindAll, heq]; rfl⟩

/-- Opening puts for hypotheses that have been closed over what a substitution does. -/
lemma openAt_close_eq_subst {args : List Term} (hm : m.In S 0) (hxs : xs.Nodup) (hlen : args.length = xs.length)
    (hargs : ∀ a ∈ args, a.looseBound = 0) : (m.close xs 0).openAt args 0 = m.subst (xs.zip args) := by
  rw [close_eq_mapVars, openAt_eq_mapVars, mapVars_mapVars, subst, substFree_eq_mapVars _ 0]
  refine mapVars_congr (n := 0) hm (fun d i hi => openVar_of_lt hi) fun d x _ => ?_
  unfold closeFree
  split
  · rename_i i hi
    have hx := getElem?_of_idxOf? hi
    have hi : i < xs.length := by simpa using (List.getElem?_eq_some_iff.mp hx).1
    rw [getElem?_reverse hi] at hx
    -- the argument at the same place, counted from either end
    obtain ⟨a, ha⟩ : ∃ a, args[xs.length - 1 - i]? = some a := ⟨_, getElem?_eq_getElem (by omega)⟩
    have hplace : args.reverse[i]? = some a := by rw [getElem?_reverse (by omega), hlen, ha]
    have hlift : a.lift d 0 = a := lift_of_looseBound (hargs a (mem_of_getElem? ha)) d
    rw [lift_eq_mapVars] at hlift
    rw [lookup_zip_eq_some hxs hx ha]
    exact (openVar_of_getElem? hplace).trans hlift
  · rename_i hnone
    have hx : x ∉ xs := fun hx => idxOf?_eq_none_iff.mp hnone (mem_reverse.mpr hx)
    rw [lookup_zip_eq_none hx]
    rfl

/-- An abstraction takes arguments for the hypotheses that it is over. -/
lemma beta_abs {xs : List Local} {args : List Term} (hm : m.In S 0) (hxs : (xs.map Local.id).Nodup)
    (hlen : args.length = xs.length) (hargs : ∀ a ∈ args, a.looseBound = 0) :
    (m.abs xs).beta args = m.subst ((xs.map Local.id).zip args) := by
  obtain ⟨bs, hbs, habs⟩ := exists_abs_eq_lams xs m
  have hbeta := beta_lams bs (m.close (xs.map Local.id) 0) args [] (hlen.trans hbs.symm)
  rw [append_nil] at hbeta
  rw [habs, hbeta, openAt_close_eq_subst hm hxs (by simpa using hlen) hargs]
  cases m.subst ((xs.map Local.id).zip args) <;> rfl

end Term

namespace Metas

variable {μ : Metas}

/-- Holes are solved by terms without hypotheses and loose indices. -/
def ClosedValues (μ : Metas) : Prop :=
  ∀ h v, μ.holes.lookup h = some v → v.hasFree = false ∧ v.looseBound = 0

lemma instantiate_close (hμ : μ.ClosedValues) (m : Term) (xs : List Id) (k : Nat) :
    μ.instantiate (m.close xs k) = (μ.instantiate m).close xs k := by
  have hvalue : ∀ h v, μ.holes.lookup h = some v → ∀ k, v.close xs k = v := by
    intro h v hv
    obtain ⟨hfree, -⟩ := hμ h v hv
    exact (in_of_hasFree hfree).close_eq_self fun _ _ h => h
  rw [instantiate_eq_mapLevels, instantiate_eq_mapLevels, resolveHoles_close hvalue, mapLevels_close]

/-- The hypothesis as far as its type is known. -/
def knownLocal (μ : Metas) (x : Local) : Local :=
  { x with type := μ.instantiate x.type }

/-- Solutions go into the types of hypotheses that are bound and into the body. -/
lemma instantiate_bindAll (hμ : μ.ClosedValues) {bind : Local → Term → Term → Term}
    (hbind : ∀ x t b, μ.instantiate (bind x t b) = bind (μ.knownLocal x) (μ.instantiate t) (μ.instantiate b))
    (xs : List Local) (before : List Id) (body : Term) : μ.instantiate (bindAll bind before xs body) =
      bindAll bind before (xs.map μ.knownLocal) (μ.instantiate body) := by
  induction xs generalizing before with
  | nil => rfl
  | cons x xs ih =>
    rw [map_cons, bindAll, bindAll, hbind, ih, instantiate_close hμ]
    rfl

lemma instantiate_bound (hμ : μ.ClosedValues) (m : Term) (xs : List Local) :
    μ.instantiate (m.abs xs) = (μ.instantiate m).abs (xs.map μ.knownLocal) ∧
      μ.instantiate (m.pis xs) = (μ.instantiate m).pis (xs.map μ.knownLocal) := by
  unfold Term.abs Term.pis
  rw [map_map, instantiate_bindAll hμ fun x t b => ?_, instantiate_bindAll hμ fun x t b => ?_, instantiate_close hμ]
  · exact ⟨rfl, rfl⟩
  all_goals
    simp only [instantiate_eq_fillHolesApp, mapLevels]
    rw [fillHolesApp_eq]
    rfl

/-- A solved hole on arguments: its solution takes them. -/
lemma instantiate_apply_hole (hμ : μ.Acyclic) {h : Id} {v : Term} (hv : μ.holes.lookup h = some v) (d : Bool)
    (args : List Term) : μ.instantiate ((hole h d).apply args) = (μ.instantiate v).beta (args.map μ.instantiate) := by
  have hhole := instantiate_hole hμ hv d
  rw [instantiate_hole_eq_getD] at hhole
  have hfilling : μ.filling h = some (μ.instantiate v) := by
    cases hf : μ.filling h with
    | none => simp [filling, hv] at hf
    | some w => rw [hf] at hhole; exact congrArg some hhole
  rw [instantiate_eq_fillHolesApp, mapLevels_apply, fillHolesApp_apply, mapLevels,
    fillHolesApp_some hfilling, append_nil, map_map]
  · exact congrArg _ (map_congr_left fun a _ => (instantiate_eq_fillHolesApp μ a).symm)
  all_goals simp

/-- Putting solutions in brings in no loose indices. -/
lemma ClosedValues.looseBound_instantiate (hμ : μ.ClosedValues) {m : Term} (hm : m.looseBound = 0) :
    (μ.instantiate m).looseBound = 0 := by
  have hin : (m.resolveHoles (μ.holes.lookup ·) μ.holes.length).In {} 0 :=
    (in_looseBound (Nat.le_of_eq hm)).resolveHoles fun h v hv => in_looseBound (Nat.le_of_eq (hμ h v hv).2)
  rw [instantiate_eq_mapLevels]
  exact Nat.le_zero.mp (hin.mapLevels_free _).looseBound_le

/-- Solutions may be put in before or after hypotheses become indices or are bound, if the solutions and the types of the
hypotheses have no part in that. So the solution of a pending goal has what is put for the hypotheses of the goal. -/
theorem instantiate_pending :
    (∀ μ : Metas, μ.ClosedValues →
      (∀ t xs k, μ.instantiate (t.close xs k) = (μ.instantiate t).close xs k) ∧
      ∀ (xs : List Local) (t : Term), (∀ x ∈ xs, x.type.hasHole = false ∧ x.type.hasLevelMVar = false) →
        μ.instantiate (t.abs xs) = (μ.instantiate t).abs xs ∧ μ.instantiate (t.pis xs) = (μ.instantiate t).pis xs) ∧
    ∀ (μ : Metas) (g : Goal) (m : Term), (μ.assignGoal g m).Acyclic → (μ.assignGoal g m).ClosedValues →
      g.context.ids.Nodup → m.looseBound = 0 →
      ∀ (deferred : Bool) (args : List Term), args.length = g.context.locals.length → (∀ a ∈ args, a.looseBound = 0) →
        (μ.assignGoal g m).instantiate ((Term.hole g.id deferred).apply args) =
          ((μ.assignGoal g m).instantiate m).subst
            (g.context.ids.zip (args.map (μ.assignGoal g m).instantiate)) := by
  refine ⟨fun μ hμ => ⟨fun t xs k => instantiate_close hμ t xs k, fun xs t hxs => ?_⟩, ?_⟩
  · have htypes : xs.map μ.knownLocal = xs := by
      refine (map_congr_left fun x hx => ?_).trans (map_id xs)
      rw [knownLocal, μ.instantiate_of_known (hxs x hx).1 (hxs x hx).2]
      rfl
    have hbound := instantiate_bound hμ t xs
    rwa [htypes] at hbound
  · intro μ g m hacyclic hμ hnodup hm deferred args hlen hargs
    have hv : (μ.assignGoal g m).holes.lookup g.id = some (m.abs g.context.locals) := by
      simp [assignGoal, assign]
    generalize μ.assignGoal g m = μ' at hv hμ hacyclic ⊢
    have hm' : (μ'.instantiate m).In {} 0 := in_looseBound (Nat.le_of_eq (hμ.looseBound_instantiate hm))
    have hids : (g.context.locals.map μ'.knownLocal).map Local.id = g.context.ids := by
      rw [map_map]
      rfl
    rw [instantiate_apply_hole hacyclic hv, (instantiate_bound hμ m _).1, beta_abs hm' (hids ▸ hnodup) (by simpa using hlen),
      hids]
    exact forall_mem_map.mpr fun a ha => hμ.looseBound_instantiate (hargs a ha)

/-- A goal is solved by an abstraction, and one of the arguments of its hole is the hole itself on others. -/
theorem instantiate_pending_nested :
    let g : Goal :=
      { id := ⟨9, none⟩, context := ⟨[.new 0 ⟨"x"⟩ (.sort .zero), .new 1 ⟨"y"⟩ (.sort .zero)]⟩, target := .sort .zero }
    let solution (x y : Id) : Term := .lam ⟨"z"⟩ (.sort .zero) (.app (.free y) (.free x))
    let solved := ({} : Metas).assignGoal g (solution ⟨0, some ⟨"x"⟩⟩ ⟨1, some ⟨"y"⟩⟩)
    let inner := (Term.hole g.id false).apply [.free ⟨2, none⟩, .free ⟨3, none⟩]
    let t := (Term.hole g.id false).apply [inner, .free ⟨4, none⟩]
    solved.instantiate t = .lam ⟨"z"⟩ (.sort .zero) (.app (.free ⟨4, none⟩) (solution ⟨2, none⟩ ⟨3, none⟩)) ∧
      solved.instantiate (t.close [⟨4, none⟩] 0) = (solved.instantiate t).close [⟨4, none⟩] 0 ∧
      solved.instantiate (t.abs g.context.locals) = (solved.instantiate t).abs g.context.locals := by
  intro g solution solved inner t
  have hvalue : ∀ p ∈ solved.holes, p.2.hasHole = false ∧ p.2.hasFree = false ∧ p.2.looseBound = 0 := by decide
  have hacyclic : solved.Acyclic := .of_ground (fun p hp h => Term.containsHole_of_hasHole (hvalue p hp).1) (by decide)
  have hclosed : solved.ClosedValues := fun h v hv => (hvalue (h, v) (mem_of_lookup_eq_some hv)).2
  obtain ⟨hclose, hbound⟩ := instantiate_pending.1 solved hclosed
  have h := instantiate_pending.2 {} g _ hacyclic hclosed (by decide) (by decide) false [inner, .free ⟨4, none⟩] rfl (by decide)
  exact ⟨h.trans (by decide), hclose t _ 0, (hbound _ t (by decide)).1⟩

end Metas

end ProofAssistant
