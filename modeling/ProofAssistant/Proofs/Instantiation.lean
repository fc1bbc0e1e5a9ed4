import ProofAssistant.Proofs.Solutions

/-!
# Putting in all solutions

Solutions are put in for holes and metavariables, then for those in the solutions, and so on. `Term.Fills` and
`Metas.Fills` follow this from solution to solution, without a bound: that there is a derivation says that it comes
to an end. It does if no solution leads back to what it solves, nothing that is solved is left then, and so doing
it again changes nothing (`Metas.instantiate_exhaustive`).
-/

namespace ProofAssistant

open Term List

/-- All constants and all holes but one. -/
def Alphabet.withoutHole (h : Id) : Alphabet where
  hole := (· ≠ h)
  start := h.number + 1
  new_hole h' hlt heq := by
    subst heq
    omega

namespace Term

variable {m r : Term} {args : List Term} {h : Id} {value : Id → Option Term}

/-- `m` on `args`, with holes replaced by their values, and those in the values by theirs, ends in the last term. -/
inductive Fills (value : Id → Option Term) : Term → List Term → Term → Prop
  | solved {h : Id} {d : Bool} {v v' : Term} {args : List Term} (hv : value h = some v) (hfill : Fills value v [] v') :
    Fills value (.hole h d) args (v'.beta args)
  | unsolved {h : Id} {d : Bool} {args : List Term} (hv : value h = none) :
    Fills value (.hole h d) args ((hole h d).apply args)
  | app {f a a' r : Term} {args : List Term} (ha : Fills value a [] a') (hf : Fills value f (a' :: args) r) :
    Fills value (.app f a) args r
  | lam {x : Name} {t t' b b' : Term} {args : List Term} (ht : Fills value t [] t') (hb : Fills value b [] b') :
    Fills value (.lam x t b) args ((lam x t' b').apply args)
  | pi {x : Name} {i : Bool} {t t' b b' : Term} {args : List Term} (ht : Fills value t [] t')
    (hb : Fills value b [] b') : Fills value (.pi x i t b) args ((pi x i t' b').apply args)
  | leaf {m : Term} {args : List Term} (hm : m.hasHole = false) : Fills value m args (m.apply args)

/-- Filling with filled values is filling with values. -/
lemma fills_fillHolesApp {filled : Id → Option Term} (hnone : ∀ h, value h = none → filled h = none)
    (hsome : ∀ h v, m.containsHole h → value h = some v → ∃ v', filled h = some v' ∧ Fills value v [] v')
    (args : List Term) : Fills value m args (m.fillHolesApp filled args) := by
  induction m generalizing args with
  | hole h d =>
    cases hv : value h with
    | none =>
      rw [fillHolesApp_none (hnone h hv)]
      exact .unsolved hv
    | some v =>
      obtain ⟨v', hv', hfill⟩ := hsome h v (by simp [containsHole_eq]) hv
      rw [fillHolesApp_some hv']
      exact .solved hv hfill
  | app f a ihf iha =>
    rw [fillHolesApp_eq]
    refine .app (iha (fun h v hh => hsome h v ?_) []) (ihf (fun h v hh => hsome h v ?_) _) <;>
      rw [containsHole_eq] <;> simp [hh]
  | lam x t b iht ihb =>
    rw [fillHolesApp_eq]
    refine .lam (iht (fun h v hh => hsome h v ?_) []) (ihb (fun h v hh => hsome h v ?_) []) <;>
      rw [containsHole_eq] <;> simp [hh]
  | pi x i t b iht ihb =>
    rw [fillHolesApp_eq]
    refine .pi (iht (fun h v hh => hsome h v ?_) []) (ihb (fun h v hh => hsome h v ?_) []) <;>
      rw [containsHole_eq] <;> simp [hh]
  | _ =>
    exact .leaf rfl

/-- Holes whose ranks are at most `depth` are filled at this depth. -/
lemma fills_resolveHoles {rank : Id → Nat}
    (hvalue : ∀ h v, value h = some v → 0 < rank h ∧ ∀ h', v.containsHole h' → rank h' < rank h) {depth : Nat}
    (hm : ∀ h, m.containsHole h → rank h ≤ depth) : Fills value m [] (m.resolveHoles value depth) := by
  induction depth generalizing m with
  | zero =>
    rw [← resolveHoles_succ hvalue hm]
    refine fills_fillHolesApp (fun h hv => by simp [hv]) (fun h v hh hv => ?_) []
    have hpos := (hvalue h v hv).1
    have hzero := hm h hh
    omega
  | succ depth ih =>
    refine fills_fillHolesApp (fun h hv => by simp [hv]) (fun h v hh hv => ?_) []
    refine ⟨v.resolveHoles value depth, by simp [hv], ih fun h' hh' => ?_⟩
    have hlow := (hvalue h v hv).2 h' hh'
    have hhigh := hm h hh
    omega

/-! ## Holes that are left -/

lemma over_withoutHole : m.Over (.withoutHole h) ↔ m.containsHole h = false := by
  rw [← Bool.not_eq_true]
  refine (leafwise_over _).iff (leafwise_containsHole h False) (fun _ m hleaf => ?_) (k := 0)
  cases m <;> simp_all [IsLeaf, Over, Alphabet.withoutHole, containsHole, hasHole]

/-- Holes that are left have no value, or come from the arguments. -/
lemma Fills.over (hfill : Fills value m args r) (hv : (value h).isSome) (hargs : ∀ a ∈ args, a.Over (.withoutHole h)) :
    r.Over (.withoutHole h) := by
  induction hfill with
  | solved _ _ ih => exact (ih (by simp)).beta hargs
  | @unsolved h' d args hnone =>
    refine over_apply.mpr ⟨⟨fun heq => ?_, fun _ => trivial, fun _ => trivial⟩, hargs⟩
    subst heq
    simp [hnone] at hv
  | app _ _ iha ihf => exact ihf (forall_mem_cons.mpr ⟨iha (by simp), hargs⟩)
  | lam _ _ iht ihb | pi _ _ iht ihb => exact over_apply.mpr ⟨⟨iht (by simp), ihb (by simp)⟩, hargs⟩
  | leaf hm =>
    refine over_apply.mpr ⟨over_withoutHole.mpr ?_, hargs⟩
    unfold containsHole
    simp [hm]

end Term

namespace Metas

variable {μ : Metas} {m r : Term} {u : Id} {l : Level}

/-! ## Universe metavariables -/

/-- A level with metavariables replaced by their solutions, and those in the solutions by theirs, ends in the other
one. -/
inductive Fills (μ : Metas) : Level → Level → Prop
  | solved {u : Id} {l l' : Level} (hl : μ.levels.lookup u = some l) (hfill : Fills μ l l') : Fills μ (.mvar u) l'
  | unsolved {u : Id} (hl : μ.levels.lookup u = none) : Fills μ (.mvar u) (.mvar u)
  | zero : Fills μ .zero .zero
  | param (p : Name) : Fills μ (.param p) (.param p)
  | succ {l l' : Level} (hl : Fills μ l l') : Fills μ l.succ l'.succ
  | max {a a' b b' : Level} (ha : Fills μ a a') (hb : Fills μ b b') : Fills μ (a.max b) (a'.max b')
  | imax {a a' b b' : Level} (ha : Fills μ a a') (hb : Fills μ b b') : Fills μ (a.imax b) (a'.imax b')

lemma fills_of_mvars (h : ∀ u ∈ l.mvars, μ.Fills (.mvar u) (μ.instantiateLevel (.mvar u))) :
    μ.Fills l (μ.instantiateLevel l) := by
  rw [instantiateLevel_eq_subst]
  induction l with
  | zero => exact .zero
  | param p => exact .param p
  | mvar u => exact h u (by simp [Level.mvars])
  | succ l ih => exact .succ (ih h)
  | max a b iha ihb =>
    exact .max (iha fun u hu => h u (mem_append_left _ hu)) (ihb fun u hu => h u (mem_append_right _ hu))
  | imax a b iha ihb =>
    exact .imax (iha fun u hu => h u (mem_append_left _ hu)) (ihb fun u hu => h u (mem_append_right _ hu))

lemma Acyclic.fills_level (hμ : μ.Acyclic) (l : Level) : μ.Fills l (μ.instantiateLevel l) := by
  obtain ⟨rank, -, -, hlow⟩ := exists_rank hμ.levels fun _ _ ⟨_, hl, _⟩ => mem_keys_of_lookup hl
  have hmvar : ∀ u, μ.Fills (.mvar u) (μ.instantiateLevel (.mvar u)) := by
    intro u
    induction hr : rank u using Nat.strong_induction_on generalizing u with
    | _ r ih =>
      cases hl : μ.levels.lookup u with
      | none =>
        rw [instantiateLevel_mvar_of_none hl]
        exact .unsolved hl
      | some l =>
        rw [instantiateLevel_mvar hμ.levels hl]
        refine .solved hl (fills_of_mvars fun w hw => ih (rank w) ?_ w rfl)
        exact hr ▸ hlow u w ⟨l, hl, by simpa [Level.containsMVar] using hw⟩
  exact fills_of_mvars fun u _ => hmvar u

/-! ## Terms -/

/-- The holes of a term are filled first, then the metavariables of what they are filled with. -/
lemma Acyclic.fills (hμ : μ.Acyclic) (m : Term) :
    ∃ r, m.Fills (μ.holes.lookup ·) [] r ∧ μ.instantiate m = r.mapLevels μ.instantiateLevel := by
  obtain ⟨rank, hbound, hpos, hlow⟩ := exists_rank hμ.holes fun _ _ ⟨_, hv, _⟩ => mem_keys_of_lookup hv
  have hvalue (h : Id) (v : Term) (hv : μ.holes.lookup h = some v) :
      0 < rank h ∧ ∀ h', v.containsHole h' → rank h' < rank h :=
    ⟨hpos h (mem_keys_of_lookup hv), fun h' hh' => hlow h h' ⟨v, hv, hh'⟩⟩
  refine ⟨_, fills_resolveHoles hvalue fun h _ => ?_, μ.instantiate_eq_mapLevels m⟩
  simpa using hbound h

lemma Acyclic.isAssigned_of_containsHole (hμ : μ.Acyclic) {h : Id} (hh : (μ.instantiate m).containsHole h) :
    μ.isAssigned h = false := by
  obtain ⟨r, hfill, hr⟩ := hμ.fills m
  by_contra hassigned
  have hover : (μ.instantiate m).Over (.withoutHole h) := by
    rw [hr, over_mapLevels]
    exact hfill.over (by simpa [isAssigned] using hassigned) (forall_mem_nil _)
  simp [over_withoutHole.mp hover] at hh

/-- The levels of a term are those of the term before with solutions put in. -/
lemma Acyclic.isLevelAssigned_of_anyLevel (hμ : μ.Acyclic) (hu : (μ.instantiate m).anyLevel (·.containsMVar u)) :
    μ.isLevelAssigned u = false := by
  have hlevel (l : Level) (hl : (μ.instantiateLevel l).containsMVar u) : μ.isLevelAssigned u = false := by
    have hnone := lookup_of_mem_mvars hμ.levels (by simpa [Level.containsMVar] using hl)
    simp [isLevelAssigned, hnone]
  obtain ⟨r, -, hr⟩ := hμ.fills m
  rw [hr] at hu
  refine Term.Leafwise.all (Q := fun _ m => (m.mapLevels _).anyLevel _ → _) ?_ (fun _ m hleaf hu => ?_) 0 r hu
  · constructor <;> simp [mapLevels, anyLevel, or_imp]
  · cases m with
    | sort l => exact hlevel l hu
    | const c ls | ctor t i c ls =>
      obtain ⟨l', hl', hu⟩ := any_eq_true.mp hu
      obtain ⟨l, -, rfl⟩ := mem_map.mp hl'
      exact hlevel l hu
    | _ => simp_all [Term.IsLeaf, mapLevels, anyLevel]

lemma instantiate_eq_self (hholes : ∀ h, m.containsHole h → μ.isAssigned h = false)
    (hlevels : ∀ u, m.anyLevel (·.containsMVar u) → μ.isLevelAssigned u = false) : μ.instantiate m = m := by
  have hlevel (l : Level) (hl : ∀ u, l.containsMVar u → μ.isLevelAssigned u = false) : μ.instantiateLevel l = l := by
    rw [instantiateLevel_eq_subst]
    refine (Level.subst_congr fun u hu => ?_).trans l.subst_self
    have hnone := hl u (by simpa [Level.containsMVar] using hu)
    exact instantiateLevel_mvar_of_none (by simpa [isLevelAssigned] using hnone)
  have hls (ls : List Level) (hls : ∀ u, ls.any (·.containsMVar u) → μ.isLevelAssigned u = false) :
      ls.map μ.instantiateLevel = ls :=
    (map_congr_left fun l hl => hlevel l fun u hu => hls u (any_eq_true.mpr ⟨l, hl, hu⟩)).trans ls.map_id
  have hmap : m.mapLevels μ.instantiateLevel = m := by
    clear hholes
    induction m with
    | sort l => rw [mapLevels, hlevel l hlevels]
    | const c ls | ctor t i c ls => rw [mapLevels, hls ls hlevels]
    | app f a ihf iha =>
      rw [mapLevels, ihf fun u hu => hlevels u (Bool.or_eq_true_iff.mpr (.inl hu)),
        iha fun u hu => hlevels u (Bool.or_eq_true_iff.mpr (.inr hu))]
    | lam x t b iht ihb | pi x i t b iht ihb =>
      rw [mapLevels, iht fun u hu => hlevels u (Bool.or_eq_true_iff.mpr (.inl hu)),
        ihb fun u hu => hlevels u (Bool.or_eq_true_iff.mpr (.inr hu))]
    | _ => rfl
  rw [instantiate_eq_fillHolesApp, hmap]
  refine fillHolesApp_eq_apply ((in_looseBound (Nat.le_refl _)).holes hholes) (fun h hh => ?_) []
  simpa [filling, isAssigned] using hh

/-- If no solution leads back to what it solves, putting solutions in comes to an end, leaves nothing that is solved,
and changes nothing when it is done again. -/
theorem instantiate_exhaustive (hμ : μ.Acyclic) (m : Term) :
    (∃ r, m.Fills (μ.holes.lookup ·) [] r ∧ μ.instantiate m = r.mapLevels μ.instantiateLevel) ∧
      (∀ l, μ.Fills l (μ.instantiateLevel l)) ∧
      (∀ h, (μ.instantiate m).containsHole h → μ.isAssigned h = false) ∧
      (∀ u, (μ.instantiate m).anyLevel (·.containsMVar u) → μ.isLevelAssigned u = false) ∧
      μ.instantiate (μ.instantiate m) = μ.instantiate m := by
  have hholes : ∀ h, (μ.instantiate m).containsHole h → μ.isAssigned h = false :=
    fun _ => hμ.isAssigned_of_containsHole
  have hlevels : ∀ u, (μ.instantiate m).anyLevel (·.containsMVar u) → μ.isLevelAssigned u = false :=
    fun _ => hμ.isLevelAssigned_of_anyLevel
  exact ⟨hμ.fills m, hμ.fills_level, hholes, hlevels, instantiate_eq_self hholes hlevels⟩

/-- Solutions that mention only later holes and metavariables do not lead back. -/
lemma Acyclic.of_number_lt (hholes : ∀ h h', μ.HoleLeads h h' → h.number < h'.number)
    (hlevels : ∀ u u', μ.LevelLeads u u' → u.number < u'.number) : μ.Acyclic where
  holes h hh := by
    have hlt : Relation.TransGen (· < ·) h.number h.number := hh.lift Id.number hholes
    exact Nat.lt_irrefl _ (Relation.transGen_eq_self (r := (· < · : Nat → Nat → Prop)) ▸ hlt)
  levels u hu := by
    have hlt : Relation.TransGen (· < ·) u.number u.number := hu.lift Id.number hlevels
    exact Nat.lt_irrefl _ (Relation.transGen_eq_self (r := (· < · : Nat → Nat → Prop)) ▸ hlt)

/-- The first hole is solved by means of the second one, and the first metavariable by means of the second one. -/
theorem instantiate_nested :
    let x (n : Nat) : Id := ⟨n, none⟩
    let μ : Metas :=
      { holes := [(x 0, .lam ⟨"A"⟩ (.sort (.mvar (x 2))) (.app (.hole (x 1) false) (.var 0))),
          (x 1, .lam ⟨"A"⟩ (.sort .one) (.var 0))],
        levels := [(x 2, .succ (.mvar (x 3))), (x 3, .zero)] }
    let m : Term := .app (.hole (x 0) false) (.app (.hole (x 4) false) (.sort (.mvar (x 2))))
    μ.Acyclic ∧ (∃ r, m.Fills (μ.holes.lookup ·) [] r) ∧
      μ.instantiate m = .app (.hole (x 4) false) (.sort .one) ∧ μ.instantiate (μ.instantiate m) = μ.instantiate m := by
  intro x μ m
  have hacyclic : μ.Acyclic := by
    refine .of_number_lt (fun h h' => ?_) fun u u' => ?_
    · rintro ⟨v, hv, hin⟩
      simp only [μ, x, lookup_cons_eq_ite, List.lookup_nil] at hv
      split_ifs at hv <;> obtain rfl := Option.some.inj hv <;> simp_all [Term.containsHole_eq]
      simp [← hin]
    · rintro ⟨l, hl, hin⟩
      simp only [μ, x, lookup_cons_eq_ite, List.lookup_nil] at hl
      split_ifs at hl <;> obtain rfl := Option.some.inj hl <;> simp_all [Level.containsMVar, Level.mvars]
  obtain ⟨⟨r, hfills, -⟩, -, -, -, hagain⟩ := instantiate_exhaustive hacyclic m
  exact ⟨hacyclic, ⟨r, hfills⟩, rfl, hagain⟩

end Metas

end ProofAssistant
