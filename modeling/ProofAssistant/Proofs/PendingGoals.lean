import ProofAssistant.Proofs.GroundUnification
import ProofAssistant.Proofs.Solutions
import ProofAssistant.Proofs.TypedTelescope

/-!
# Pending goals

The hole of a goal occurs applied to the hypotheses of the goal. Where an enclosing term binds some of them before the
goal is solved, these are indices by the time that the solution is put in: it makes no difference which comes first
(`Term.fillHoles_abs`).
-/

namespace ProofAssistant

namespace Term

open List

variable {value : Id → Option Term} {xs : List Id} {S : Scope} {m : Term} {k : Nat}

lemma In.close_eq_self (hm : m.In S k) (hxs : ∀ x ∈ xs, ¬ S.free x) (j : Nat) : m.close xs j = m := by
  rw [close_eq_mapVars]
  refine mapVars_eq_self (hm.le (Nat.le_add_left k j)) (fun _ _ _ => rfl) fun _ x hx => ?_
  simp [closeFree, idxOf?_eq_none_iff.mpr fun h => hxs x (mem_reverse.mp h) hx]

/-- Contracting abstractions passes a closing, which puts none in. -/
lemma beta_closing (m : Term) (as : List Term) (xs : List Id) (k : Nat) : (m.beta as).replace (.closing xs k) =
    (m.replace (.closing xs k)).beta (as.map (·.replace (.closing xs k))) := by
  fun_induction beta m as with
  | case1 x t b a as ih =>
    rw [ih, replace_instantiate]
    rfl
  | case2 m as hlam =>
    rw [replace_apply]
    cases as with
    | nil => cases m.replace (.closing xs k) <;> rfl
    | cons a as =>
      cases m with
      | lam x t b => exact absurd rfl (hlam x t b a as rfl)
      | free x => simp only [replace, Replacement.closing]; split <;> rfl
      | _ => rfl

lemma fillHolesApp_apply (m : Term) (as args : List Term) :
    (m.apply as).fillHolesApp value args = m.fillHolesApp value (as.map (·.fillHoles value) ++ args) := by
  induction as generalizing m with
  | nil => rfl
  | cons a as ih => exact (ih (m.app a)).trans (by rw [fillHolesApp_eq]; rfl)

/-- Values in which no hypothesis becomes an index may be put in before or after. -/
lemma fillHolesApp_close (hvalue : ∀ h v, value h = some v → ∀ k, v.close xs k = v) (m : Term) (k : Nat)
    (args : List Term) : (m.close xs k).fillHolesApp value (args.map (·.close xs k)) =
      (m.fillHolesApp value args).close xs k := by
  simp only [close_eq_replace]
  induction m generalizing k args with
  | hole h d =>
    cases hv : value h with
    | none => rw [replace, fillHolesApp_none hv, fillHolesApp_none hv, replace_apply, replace]
    | some v =>
      rw [replace, fillHolesApp_some hv, fillHolesApp_some hv, beta_closing, ← close_eq_replace, hvalue h v hv]
  | app f a ihf iha =>
    have ha := iha k []
    have hf := ihf k (a.fillHolesApp value [] :: args)
    rw [map_cons, ← ha] at hf
    rw [fillHolesApp_eq, fillHolesApp_eq value (app f a)]
    exact hf
  | lam x t b iht ihb | pi x i t b iht ihb =>
    have ht := iht k []
    have hb := ihb (k + 1) []
    rw [map_nil] at ht hb
    rw [fillHolesApp_eq]
    conv_rhs => rw [fillHolesApp_eq]
    simp only [replace_apply, replace, up_closing, ht, hb]
  | free x =>
    have hplace : ((free x).replace (.closing xs k)).fillHolesApp value (args.map (·.replace (.closing xs k))) =
        ((free x).replace (.closing xs k)).apply (args.map (·.replace (.closing xs k))) := by
      cases hx : xs.reverse.idxOf? x with
      | none => rw [show (free x).replace (.closing xs k) = free x by simp [replace, Replacement.closing, hx], fillHolesApp_eq]
      | some i => rw [show (free x).replace (.closing xs k) = var (k + i) by simp [replace, Replacement.closing, hx], fillHolesApp_eq]
    rw [hplace, fillHolesApp_eq, replace_apply]
  | _ => rw [fillHolesApp_eq, fillHolesApp_eq, replace_apply]; rfl

lemma fillHoles_abs {xs : List Local}
    (hvalue : ∀ h v, value h = some v → v.In { free := fun y => y ∉ xs.map Local.id } 0)
    (hxs : ∀ x ∈ xs, x.type.fillHoles value = x.type) (m : Term) :
    (m.abs xs).fillHoles value = (m.fillHoles value).abs xs := by
  induction xs with
  | nil => rw [abs_nil, abs_nil]
  | cons x xs ih =>
    obtain ⟨hx, hxs⟩ := forall_mem_cons.mp hxs
    have hclose := @fillHolesApp_close value [x.id] (fun h v hv => (hvalue h v hv).close_eq_self (by simp)) (m.abs xs) 0 []
    have ih := ih (fun h v hv => (hvalue h v hv).widen { free := fun y hy => by simp_all }) hxs
    rw [abs_cons, abs_cons, fillHoles, fillHolesApp_eq]
    show lam x.name (x.type.fillHoles value) (((m.abs xs).close [x.id] 0).fillHolesApp value []) = _
    rw [hx, ← ih]
    exact congrArg (lam x.name x.type) hclose

end Term

end ProofAssistant
