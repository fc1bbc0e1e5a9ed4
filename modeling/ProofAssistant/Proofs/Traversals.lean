import Mathlib.Data.List.Nodup
import ProofAssistant.Proofs.Scope

/-!
# Traversals that stop early

Operations on terms stop at a part in which nothing can change, by what the part keeps at its root. `Term.mapVars` and
`Term.foldLeaves` are traversals that visit all of a term; each operation agrees with one of them, so it does not
matter where it stops (`Term.eq_mapVars`, `Term.eq_foldLeaves`). For traversals that never stop it is plain what one of
them does after another, and so that opening and closing undo each other (`Term.traversals_exact`).
-/

namespace ProofAssistant

open List Term

lemma getElem?_of_idxOf? {xs : List Id} {x : Id} {i : Nat} (h : xs.idxOf? x = some i) : xs[i]? = some x := by
  obtain ⟨hi, hx, -⟩ := findIdx?_eq_some_iff_getElem.mp h
  rw [getElem?_eq_getElem hi, beq_iff_eq.mp hx]

lemma idxOf?_of_getElem? {xs : List Id} {x : Id} {i : Nat} (hxs : xs.Nodup) (h : xs[i]? = some x) :
    xs.idxOf? x = some i := by
  obtain ⟨hi, rfl⟩ := List.getElem?_eq_some_iff.mp h
  refine findIdx?_eq_some_iff_getElem.mpr ⟨hi, beq_self_eq_true _, fun j hj heq => ?_⟩
  exact Nat.ne_of_lt hj (hxs.getElem_inj_iff.mp (beq_iff_eq.mp heq))

lemma lookup_of_mem {α β : Type} [BEq α] [LawfulBEq α] {ps : List (α × β)} (hps : (ps.map Prod.fst).Nodup) {x : α}
    {a : β} (h : (x, a) ∈ ps) : ps.lookup x = some a := by
  obtain ⟨qs, rs, rfl⟩ := append_of_mem h
  refine lookup_eq_some_iff.mpr ⟨qs, rs, rfl, fun q hq => ?_⟩
  rw [map_append, nodup_append] at hps
  exact bne_iff_ne.mpr (Ne.symm (hps.2.2 _ (mem_map_of_mem hq) _ (by simp)))

namespace Term

variable {S : Scope} {k n : Nat} {m : Term}

/-! ## Rebuilding all of a term -/

/-- Rebuilds a term that stands below `k` binders, with the given terms for its indices and hypotheses. -/
def mapVars (var : (depth index : Nat) → Term) (free : (depth : Nat) → Id → Term) : (k : Nat) → Term → Term
  | k, .var i => var k i
  | k, .free x => free k x
  | k, .app f a => .app (f.mapVars var free k) (a.mapVars var free k)
  | k, .lam x t b => .lam x (t.mapVars var free k) (b.mapVars var free (k + 1))
  | k, .pi x i t b => .pi x i (t.mapVars var free k) (b.mapVars var free (k + 1))
  | _, m => m

/-- Rebuilds a term from its parts, for which `visit` is taken. -/
def mapParts (var : (depth index : Nat) → Term) (free : (depth : Nat) → Id → Term) (visit : Nat → Term → Term)
    (k : Nat) : Term → Term
  | .var i => var k i
  | .free x => free k x
  | .app f a => .app (visit k f) (visit k a)
  | .lam x t b => .lam x (visit k t) (visit (k + 1) b)
  | .pi x i t b => .pi x i (visit k t) (visit (k + 1) b)
  | m => m

section Rebuilding

variable {var var' : Nat → Nat → Term} {free free' : Nat → Id → Term} (visit : Nat → Term → Term)

/-- A traversal may stop wherever it has the right result. -/
lemma eq_mapVars
    (h : ∀ k m, visit k m = m.mapVars var free k ∨ visit k m = m.mapParts var free visit k) (k : Nat) (m : Term) :
    visit k m = m.mapVars var free k := by
  induction m generalizing k with
  | app f a ihf iha =>
    refine (h k _).elim id fun h => h.trans ?_
    rw [mapParts, mapVars, ihf, iha]
  | lam x t b iht ihb | pi x _ t b iht ihb =>
    refine (h k _).elim id fun h => h.trans ?_
    rw [mapParts, mapVars, iht, ihb]
  | _ => exact (h k _).elim id id

lemma mapVars_congr (hm : m.In S (k + n)) (hvar : ∀ d i, i < d + n → var d i = var' d i)
    (hfree : ∀ d x, S.free x → free d x = free' d x) : m.mapVars var free k = m.mapVars var' free' k := by
  induction m generalizing k with
  | var i => exact hvar k i hm
  | free x => exact hfree k x hm
  | app f a ihf iha => rw [mapVars, mapVars, ihf hm.1, iha hm.2]
  | lam x t b iht ihb | pi x _ t b iht ihb =>
    have hb : b.In S (k + 1 + n) := Nat.add_right_comm k 1 n ▸ hm.2
    rw [mapVars, mapVars, iht hm.1, ihb hb]
  | _ => rfl

lemma mapVars_id (k : Nat) (m : Term) : m.mapVars (fun _ => .var) (fun _ => .free) k = m := by
  induction m generalizing k with
  | app f a ihf iha => rw [mapVars, ihf, iha]
  | lam x t b iht ihb | pi x _ t b iht ihb => rw [mapVars, iht, ihb]
  | _ => rfl

/-- A traversal that keeps the indices and the hypotheses that occur keeps the term. -/
lemma mapVars_eq_self (hm : m.In S (k + n)) (hvar : ∀ d i, i < d + n → var d i = .var i)
    (hfree : ∀ d x, S.free x → free d x = .free x) : m.mapVars var free k = m :=
  (mapVars_congr hm hvar hfree).trans (m.mapVars_id k)

/-- A traversal that starts further inside. -/
lemma mapVars_add (n k : Nat) (m : Term) :
    m.mapVars var free (k + n) = m.mapVars (fun d => var (d + n)) (fun d => free (d + n)) k := by
  induction m generalizing k with
  | app f a ihf iha => rw [mapVars, mapVars, ihf, iha]
  | lam x t b iht ihb | pi x _ t b iht ihb => rw [mapVars, mapVars, iht, Nat.add_right_comm, ihb]
  | _ => rfl

lemma mapVars_mapVars (k : Nat) (m : Term) : (m.mapVars var free k).mapVars var' free' k =
    m.mapVars (fun d i => (var d i).mapVars var' free' d) (fun d x => (free d x).mapVars var' free' d) k := by
  induction m generalizing k with
  | app f a ihf iha => rw [mapVars, mapVars, mapVars, ihf, iha]
  | lam x t b iht ihb | pi x _ t b iht ihb => rw [mapVars, mapVars, mapVars, iht, ihb]
  | _ => rfl

end Rebuilding

/-- What lifting by `n` puts for an index below `k` binders. -/
def liftVar (n k i : Nat) : Term :=
  if i < k then .var i else .var (i + n)

/-- What opening with `xs` puts for an index below `k` binders. -/
def openVar (xs : List Term) (k i : Nat) : Term :=
  if i < k then .var i
  else
    match xs.reverse[i - k]? with
    | some x => x.mapVars (liftVar k) (fun _ => .free) 0
    | none => .var (i - xs.length)

section

variable {l : List Term} {x : Term} {i : Nat}

lemma openVar_of_lt (h : i < k) : openVar l k i = .var i :=
  if_pos h

lemma openVar_of_getElem? (h : l.reverse[i]? = some x) :
    openVar l k (k + i) = x.mapVars (liftVar k) (fun _ => .free) 0 := by
  simp [openVar, h, Nat.not_lt.mpr (Nat.le_add_right k i)]

lemma openVar_of_le (h : k + l.length ≤ i) : openVar l k i = .var (i - l.length) := by
  have hnone : l.reverse[i - k]? = none := by
    rw [getElem?_eq_none_iff, length_reverse]
    omega
  simp [openVar, hnone, Nat.not_lt.mpr (Nat.le_trans (Nat.le_add_right k _) h)]

end

/-- What closing over `xs` puts for a hypothesis below `k` binders. -/
def closeFree (xs : List Id) (k : Nat) (x : Id) : Term :=
  match xs.reverse.idxOf? x with
  | some i => .var (k + i)
  | none => .free x

lemma lift_eq_mapVars (n k : Nat) (m : Term) : m.lift n k = m.mapVars (liftVar n) (fun _ => .free) k := by
  refine eq_mapVars (lift n) (fun k m => ?_) k m
  unfold lift
  split
  · rename_i hstop
    left
    rcases hstop with rfl | hstop
    · exact (mapVars_eq_self (in_looseBound (Nat.le_add_left _ k)) (fun d i _ => by simp [liftVar]) fun _ _ _ => rfl).symm
    · exact (mapVars_eq_self (n := 0) (in_looseBound hstop) (fun d i hi => if_pos hi) fun _ _ _ => rfl).symm
  · rename_i hgo
    right
    cases m with
    | var i =>
      have hi : ¬ i < k := fun hi => hgo (.inr hi)
      exact (if_neg hi).symm
    | _ => rfl

lemma lift_app (f a : Term) (n k : Nat) : (app f a).lift n k = app (f.lift n k) (a.lift n k) := by
  simp only [lift_eq_mapVars, mapVars]

lemma lift_lam (x : Name) (t b : Term) (n k : Nat) : (lam x t b).lift n k = lam x (t.lift n k) (b.lift n (k + 1)) := by
  simp only [lift_eq_mapVars, mapVars]

lemma lift_pi (x : Name) (i : Bool) (t b : Term) (n k : Nat) :
    (pi x i t b).lift n k = pi x i (t.lift n k) (b.lift n (k + 1)) := by
  simp only [lift_eq_mapVars, mapVars]

lemma openAt_eq_mapVars (xs : List Term) (k : Nat) (m : Term) :
    m.openAt xs k = m.mapVars (openVar xs) (fun _ => .free) k := by
  refine eq_mapVars (openAt xs) (fun k m => ?_) k m
  unfold openAt
  split
  · rename_i hstop
    exact .inl (mapVars_eq_self (n := 0) (in_looseBound hstop) (fun d i hi => if_pos hi) fun _ _ _ => rfl).symm
  · right
    cases m with
    | var i =>
      simp only [lift_eq_mapVars] <;> rfl
    | _ => rfl

/-- There is nothing to do in a term that keeps that it has no hypothesis. -/
lemma mapVars_of_hasFree {free : Nat → Id → Term} (h : m.hasFree = false) (k : Nat) :
    m.mapVars (fun _ => .var) free k = m :=
  mapVars_eq_self ((in_of_hasFree (P := fun _ => False) h).le (Nat.le_add_left _ k))
    (fun _ _ _ => rfl) fun _ _ hx => hx.elim

lemma close_eq_mapVars (xs : List Id) (k : Nat) (m : Term) :
    m.close xs k = m.mapVars (fun _ => .var) (closeFree xs) k := by
  refine eq_mapVars (close xs) (fun k m => ?_) k m
  unfold close
  split
  · rename_i hstop
    exact .inl (mapVars_of_hasFree (by simpa using hstop) k).symm
  · right
    cases m <;> rfl

lemma substFree_eq_mapVars (value : Id → Option Term) (k : Nat) (m : Term) :
    m.substFree value = m.mapVars (fun _ => .var) (fun _ x => (value x).getD (.free x)) k := by
  refine eq_mapVars (fun _ => substFree value) (fun k m => ?_) k m
  unfold substFree
  split
  · rename_i hstop
    exact .inl (mapVars_of_hasFree (by simpa using hstop) k).symm
  · right
    cases m <;> rfl

/-! ## Visiting all leaves -/

section Visiting

variable {α : Type} {join : α → α → α} {leaf : Nat → Term → α} (visit : Nat → Term → α) {r : α} {P : Nat → Term → Prop}

/-- Joins what is found at the leaves of a term that stands below `k` binders. -/
def foldLeaves (join : α → α → α) (leaf : (depth : Nat) → Term → α) : (k : Nat) → Term → α
  | k, .app f a => join (f.foldLeaves join leaf k) (a.foldLeaves join leaf k)
  | k, .lam _ t b | k, .pi _ _ t b => join (t.foldLeaves join leaf k) (b.foldLeaves join leaf (k + 1))
  | k, m => leaf k m

/-- Joins what `visit` finds in the parts of a term. -/
def foldParts (join : α → α → α) (leaf : (depth : Nat) → Term → α) (visit : Nat → Term → α) (k : Nat) : Term → α
  | .app f a => join (visit k f) (visit k a)
  | .lam _ t b | .pi _ _ t b => join (visit k t) (visit (k + 1) b)
  | m => leaf k m

lemma foldLeaves_eq (hjoin : join r r = r) (hP : Leafwise P) (hleaf : ∀ k l, l.IsLeaf → P k l → leaf k l = r)
    (hm : P k m) : m.foldLeaves join leaf k = r := by
  induction m generalizing k with
  | app f a ihf iha =>
    rw [hP.app] at hm
    rw [foldLeaves, ihf hm.1, iha hm.2, hjoin]
  | lam x t b iht ihb | pi x _ t b iht ihb =>
    simp only [hP.lam, hP.pi] at hm
    rw [foldLeaves, iht hm.1, ihb hm.2, hjoin]
  | _ => exact hleaf k _ trivial hm

/-- A visit may stop at a part all leaves of which give the same. -/
lemma eq_foldLeaves (hjoin : join r r = r) (hP : Leafwise P) (hleaf : ∀ k l, l.IsLeaf → P k l → leaf k l = r)
    (h : ∀ k m, P k m ∧ visit k m = r ∨ visit k m = m.foldParts join leaf visit k) (k : Nat) (m : Term) :
    visit k m = m.foldLeaves join leaf k := by
  have hstop {k : Nat} {m : Term} (h : P k m ∧ visit k m = r) : visit k m = m.foldLeaves join leaf k :=
    h.2.trans (foldLeaves_eq hjoin hP hleaf h.1).symm
  induction m generalizing k with
  | app f a ihf iha =>
    refine (h k _).elim hstop fun h => h.trans ?_
    rw [foldParts, foldLeaves, ihf, iha]
  | lam x t b iht ihb | pi x _ t b iht ihb =>
    refine (h k _).elim hstop fun h => h.trans ?_
    rw [foldParts, foldLeaves, iht, ihb]
  | _ => exact (h k _).elim hstop id

/-- A visit may stop where a fact that is kept shows that there is nothing to find. -/
lemma eq_foldLeaves_of_flag {flag : Term → Bool} {leaf visit : Term → α} (hjoin : join r r = r)
    (hflag : Leafwise fun _ m => flag m = false) (hleaf : ∀ l, l.IsLeaf → flag l = false → leaf l = r)
    (h : ∀ k m, visit m = if !flag m then r else m.foldParts join (fun _ => leaf) (fun _ => visit) k) (k : Nat)
    (m : Term) : visit m = m.foldLeaves join (fun _ => leaf) k := by
  refine eq_foldLeaves (fun _ => visit) hjoin hflag (fun _ => hleaf) (fun k m => ?_) k m
  have hm := h k m
  split at hm
  · rename_i hstop
    exact .inl ⟨by simpa using hstop, hm⟩
  · exact .inr hm

end Visiting

/-- The leaf is this index. -/
def isVar (i : Nat) : Term → Bool
  | .var j => j == i
  | _ => false

/-- The leaf is this hypothesis. -/
def isFree (x : Id) : Term → Bool
  | .free y => y == x
  | _ => false

/-- The leaf is one of these hypotheses, or no hypothesis. -/
def isFreeOnlyOf (xs : List Id) : Term → Bool
  | .free y => xs.contains y
  | _ => true

/-- The leaf is this hole. -/
def isHoleOf (h : Id) : Term → Bool
  | .hole h' _ => h' == h
  | _ => false

lemma containsVar_eq_foldLeaves (i : Nat) (m : Term) : m.containsVar i = m.foldLeaves (· || ·) isVar i := by
  refine eq_foldLeaves containsVar (r := false) rfl leafwise_looseBound (fun k l hl h => ?_) (fun k m => ?_) i m
  · cases l <;> simp_all [looseBound, isVar]
    omega
  · unfold containsVar
    split
    · exact .inl ⟨‹_›, rfl⟩
    · exact .inr (by cases m <;> rfl)

lemma containsVar_of_looseBound {i : Nat} (h : m.looseBound ≤ i) : m.containsVar i = false := by
  unfold containsVar
  exact if_pos h

lemma containsFree_eq_foldLeaves (x : Id) (k : Nat) (m : Term) :
    m.containsFree x = m.foldLeaves (· || ·) (fun _ => isFree x) k := by
  refine eq_foldLeaves_of_flag (Bool.or_self false) leafwise_hasFree (fun l hl h => ?_) (fun k m => ?_) k m
  · cases l <;> simp_all [hasFree, isFree]
  · cases m <;> rfl

/-- Terms that keep that they mention no hypothesis need not be looked into. -/
lemma containsFree_eq (x : Id) (m : Term) : m.containsFree x =
    match m with
    | .free y => y == x
    | .app f a => f.containsFree x || a.containsFree x
    | .lam _ t b | .pi _ _ t b => t.containsFree x || b.containsFree x
    | _ => false := by
  have hfold := containsFree_eq_foldLeaves x
  cases m with
  | app f a => rw [hfold 0, foldLeaves, ← hfold, ← hfold]
  | lam y t b | pi y _ t b => rw [hfold 0, foldLeaves, ← hfold, ← hfold]
  | _ => rw [hfold 0]; rfl

lemma leafwise_containsFree (x : Id) (R : Prop) : Leafwise fun _ m => m.containsFree x → R := by
  constructor <;> intros <;> rw [containsFree_eq] <;> simp [or_imp]

lemma In.free_of_containsFree {x : Id} (hm : m.In S k) (hx : m.containsFree x) : S.free x := by
  refine (leafwise_in S).imp (leafwise_containsFree x _) (fun k m hl h => ?_) hm hx
  cases m <;> simp_all [IsLeaf, containsFree, hasFree]
  exact fun hy => hy ▸ h

lemma In.of_forall_containsFree {P : Id → Prop} (hm : m.In S k) (hP : ∀ x, m.containsFree x → P x) :
    m.In { S with free := P } k := by
  have hall : Leafwise fun _ m => ∀ x, m.containsFree x → P x := .forall fun x => leafwise_containsFree x (P x)
  refine ((leafwise_in S).and hall).imp (leafwise_in _) (fun k m hl h => ?_) ⟨hm, hP⟩
  cases m <;> simp_all [IsLeaf, In, containsFree, hasFree]

lemma isSupportedBy_eq_foldLeaves (xs : List Id) (k : Nat) (m : Term) :
    m.isSupportedBy xs = m.foldLeaves (· && ·) (fun _ => isFreeOnlyOf xs) k := by
  refine eq_foldLeaves_of_flag (Bool.and_self true) leafwise_hasFree (fun l hl h => ?_) (fun k m => ?_) k m
  · cases l <;> simp_all [hasFree, isFreeOnlyOf]
  · cases m <;> rfl

lemma containsHole_of_hasHole {h : Id} (hm : m.hasHole = false) : m.containsHole h = false := by
  unfold containsHole
  simp [hm]

lemma containsHole_eq_foldLeaves (h : Id) (k : Nat) (m : Term) :
    m.containsHole h = m.foldLeaves (· || ·) (fun _ => isHoleOf h) k := by
  refine eq_foldLeaves_of_flag (Bool.or_self false) leafwise_hasHole (fun l hl h => ?_) (fun k m => ?_) k m
  · cases l <;> simp_all [hasHole, isHoleOf]
  · cases m <;> rfl

/-- Terms that keep that they have no hole need not be looked into. -/
lemma containsHole_eq (h : Id) (m : Term) : m.containsHole h =
    match m with
    | .hole h' _ => h' == h
    | .app f a => f.containsHole h || a.containsHole h
    | .lam _ t b | .pi _ _ t b => t.containsHole h || b.containsHole h
    | _ => false := by
  have hfold := containsHole_eq_foldLeaves h
  cases m with
  | app f a => rw [hfold 0, foldLeaves, ← hfold, ← hfold]
  | lam y t b | pi y _ t b => rw [hfold 0, foldLeaves, ← hfold, ← hfold]
  | _ => rw [hfold 0]; rfl

lemma leafwise_containsHole (h : Id) (R : Prop) : Leafwise fun _ m => m.containsHole h → R := by
  constructor <;> intros <;> rw [containsHole_eq] <;> simp [or_imp]

/-! ## Filling the holes of all parts -/

lemma fillHolesApp_eq (value : Id → Option Term) (m : Term) (args : List Term) : m.fillHolesApp value args =
    match m with
    | .hole h d =>
      match value h with
      | some v => v.beta args
      | none => (hole h d).apply args
    | .app f a => f.fillHolesApp value (a.fillHolesApp value [] :: args)
    | .lam x t b => (lam x (t.fillHolesApp value []) (b.fillHolesApp value [])).apply args
    | .pi x i t b => (pi x i (t.fillHolesApp value []) (b.fillHolesApp value [])).apply args
    | m => m.apply args := by
  have hnone : ∀ (m : Term) (args : List Term), m.hasHole = false → m.fillHolesApp value args = m.apply args := by
    intro m args hm
    unfold fillHolesApp
    simp [hm]
  cases hole : m.hasHole with
  | true =>
    refine (fillHolesApp.eq_def ..).trans ((if_neg (by simp [hole])).trans ?_)
    cases m <;> rfl
  | false =>
    rw [hnone m args hole]
    cases m with
    | app f a | lam x t b | pi x i t b =>
      simp only [hasHole, Bool.or_eq_false_iff] at hole
      simp [hnone _ _ hole.1, hnone _ _ hole.2]
    | hole h' d => simp [hasHole] at hole
    | _ => rfl

/-- `m` on `args`, with every hole that has a value replaced by it; every part is looked into. -/
def fillEachApp (value : Id → Option Term) : (m : Term) → (args : List Term) → Term
  | .hole h deferred, args =>
    match value h with
    | some v => v.beta args
    | none => (hole h deferred).apply args
  | .app f a, args => f.fillEachApp value (a.fillEachApp value [] :: args)
  | .lam x t b, args => (lam x (t.fillEachApp value []) (b.fillEachApp value [])).apply args
  | .pi x i t b, args => (pi x i (t.fillEachApp value []) (b.fillEachApp value [])).apply args
  | m, args => m.apply args

/-- Replaces holes by their values, and holes in the values by theirs, `depth` values deep. -/
def resolveEach (value : Id → Option Term) : (depth : Nat) → Term → Term
  | 0, m => m
  | depth + 1, m => m.fillEachApp (fun h => (value h).map (resolveEach value depth)) []

lemma fillHolesApp_eq_fillEachApp (value : Id → Option Term) (m : Term) (args : List Term) :
    m.fillHolesApp value args = m.fillEachApp value args := by
  induction m generalizing args with
  | app f a ihf iha =>
    rw [fillHolesApp_eq, fillEachApp]
    simp only [ihf, iha]
  | lam x t b iht ihb | pi x i t b iht ihb =>
    rw [fillHolesApp_eq, fillEachApp]
    simp only [iht, ihb]
  | _ => rw [fillHolesApp_eq]; rfl

lemma resolveHoles_of_hasHole {value : Id → Option Term} (h : m.hasHole = false) (depth : Nat) :
    m.resolveHoles value depth = m := by
  cases depth with
  | zero => rfl
  | succ depth =>
    unfold resolveHoles fillHoles fillHolesApp
    simp [h]

lemma resolveHoles_eq_resolveEach (value : Id → Option Term) (depth : Nat) (m : Term) :
    m.resolveHoles value depth = m.resolveEach value depth := by
  induction depth generalizing m with
  | zero => rfl
  | succ depth ih =>
    have hvalue : resolveHoles value depth = resolveEach value depth := funext ih
    rw [resolveHoles, resolveEach, fillHoles, fillHolesApp_eq_fillEachApp, hvalue]

/-! ## Opening and closing -/

/-- All loose indices are below `k` if no other one occurs. -/
lemma in_of_containsVar (h : ∀ i, k ≤ i → m.containsVar i = false) : m.In {} k := by
  simp only [containsVar_eq_foldLeaves] at h
  induction m generalizing k with
  | var i =>
    refine Nat.lt_of_not_le fun hi => ?_
    simpa [foldLeaves, isVar] using h i hi
  | app f a ihf iha =>
    simp only [foldLeaves, Bool.or_eq_false_iff] at h
    exact ⟨ihf fun i hi => (h i hi).1, iha fun i hi => (h i hi).2⟩
  | lam x t b iht ihb | pi x _ t b iht ihb =>
    simp only [foldLeaves, Bool.or_eq_false_iff] at h
    refine ⟨iht fun i hi => (h i hi).1, ihb fun i hi => ?_⟩
    obtain ⟨j, rfl⟩ := Nat.exists_eq_add_of_le' (Nat.le_trans (Nat.le_add_left 1 k) hi)
    exact (h j (Nat.le_of_succ_le_succ hi)).2
  | _ => trivial

/-- The hypotheses that were closed over come back. -/
lemma openAt_close (hm : m.In S k) (xs : List Id) : (m.close xs k).openAt (xs.map .free) k = m := by
  rw [close_eq_mapVars, openAt_eq_mapVars, mapVars_mapVars]
  refine mapVars_eq_self (n := 0) hm (fun d i hi => openVar_of_lt hi) fun d x _ => ?_
  unfold closeFree
  split
  · rename_i i hi
    exact openVar_of_getElem? (x := .free x) (by rw [← map_reverse, getElem?_map, getElem?_of_idxOf? hi]; rfl)
  · rfl

/-- The indices that were opened come back, if no hypothesis stands for two of them or occurs already. -/
lemma close_openAt {xs : List Id} (hxs : xs.Nodup) (hm : m.In S (k + xs.length)) (hfree : ∀ x ∈ xs, ¬ S.free x) :
    (m.openAt (xs.map .free) k).close xs k = m := by
  rw [close_eq_mapVars, openAt_eq_mapVars, mapVars_mapVars]
  refine mapVars_eq_self hm (fun d i hi => ?_) fun d x hx => ?_
  · by_cases hid : i < d
    · rw [openVar_of_lt hid, mapVars]
    · obtain ⟨j, rfl⟩ := Nat.exists_eq_add_of_le (Nat.le_of_not_lt hid)
      have hj : xs.reverse[j]? = some _ := getElem?_eq_getElem (by rw [length_reverse]; omega)
      rw [openVar_of_getElem? (by rw [← map_reverse, getElem?_map, hj]; rfl)]
      simp only [mapVars, closeFree, idxOf?_of_getElem? (nodup_reverse.mpr hxs) hj]
  · have hnone : xs.reverse.idxOf? x = none :=
      idxOf?_eq_none_iff.mpr fun h => hfree x (mem_reverse.mp h) hx
    simp [mapVars, closeFree, hnone]

/-- What is put for an index is lifted over the others, and has no part in their opening. -/
lemma openAt_lift_add (xs : List Term) (n k : Nat) (m : Term) :
    (m.lift (n + xs.length) k).openAt xs (k + n) = m.lift n k := by
  rw [lift_eq_mapVars, openAt_eq_mapVars, mapVars_add, mapVars_mapVars, lift_eq_mapVars]
  refine mapVars_congr (in_looseBound (Nat.le_add_left _ k)) (fun d i _ => ?_) fun _ _ _ => rfl
  by_cases hi : i < d
  · simp [liftVar, mapVars, hi, openVar_of_lt (Nat.lt_add_right n hi)]
  · simp only [liftVar, mapVars, hi, if_false]
    rw [openVar_of_le (by omega), ← Nat.add_assoc, Nat.add_sub_cancel]

lemma lift_zero (k : Nat) (m : Term) : m.lift 0 k = m := by
  unfold lift
  exact if_pos (.inl rfl)

lemma lift_of_looseBound (h : m.looseBound = 0) (n : Nat) : m.lift n 0 = m := by
  unfold lift
  exact if_pos (.inr (Nat.le_of_eq h))

lemma openAt_lift (xs : List Term) (k : Nat) (m : Term) : (m.lift xs.length k).openAt xs k = m := by
  simpa [lift_zero] using openAt_lift_add xs 0 k m

/-- The first of some indices may be opened before the others. -/
lemma openAt_cons (a : Term) (as : List Term) (k : Nat) (m : Term) :
    (m.openAt [a] (k + as.length)).openAt as k = m.openAt (a :: as) k := by
  simp only [openAt_eq_mapVars, mapVars_add as.length, mapVars_mapVars]
  refine mapVars_congr (in_looseBound (Nat.le_add_left _ k)) (fun d i _ => ?_) fun _ _ _ => rfl
  have hrev : (a :: as).reverse = as.reverse ++ [a] := reverse_cons
  rcases Nat.lt_trichotomy i (d + as.length) with hi | rfl | hi
  · rw [openVar_of_lt hi, mapVars]
    by_cases hid : i < d
    · rw [openVar_of_lt hid, openVar_of_lt hid]
    · obtain ⟨j, rfl⟩ := Nat.exists_eq_add_of_le (Nat.le_of_not_lt hid)
      have hj : j < as.reverse.length := by rw [length_reverse]; omega
      have hget := getElem?_eq_getElem hj
      rw [openVar_of_getElem? hget, openVar_of_getElem? (by rw [hrev, getElem?_append_left hj, hget])]
  · have hback := openAt_lift_add as d 0 a
    rw [openAt_eq_mapVars, lift_eq_mapVars, lift_eq_mapVars, Nat.zero_add] at hback
    rw [openVar_of_getElem? (x := a) (by simp), ← hback]
    exact congrArg _ (openVar_of_getElem? (i := 0) rfl)
  · rw [openVar_of_le hi, openVar_of_le (by rw [length_cons]; omega), mapVars,
      openVar_of_le (by rw [length_singleton]; omega), Nat.sub_sub, Nat.add_comm]
    rfl

/-- Opening and closing undo each other, and no operation depends on where it stops. -/
theorem traversals_exact (m : Term) :
    (∀ (xs : List Id) (k : Nat), (∀ i, k ≤ i → m.containsVar i = false) →
      (m.close xs k).openAt (xs.map .free) k = m) ∧
    (∀ (xs : List Id) (k : Nat), xs.Nodup → (∀ x ∈ xs, m.containsFree x = false) →
      (∀ i, k + xs.length ≤ i → m.containsVar i = false) → (m.openAt (xs.map .free) k).close xs k = m) ∧
    (∀ xs k, m.openAt xs k = m.mapVars (openVar xs) (fun _ => .free) k) ∧
    (∀ n k, m.lift n k = m.mapVars (liftVar n) (fun _ => .free) k) ∧
    (∀ xs k, m.close xs k = m.mapVars (fun _ => .var) (closeFree xs) k) ∧
    (∀ values, m.subst values = m.mapVars (fun _ => .var) (fun _ x => (values.lookup x).getD (.free x)) 0) ∧
    (∀ value, m.fillHoles value = m.fillEachApp value []) ∧
    (∀ value depth, m.resolveHoles value depth = m.resolveEach value depth) ∧
    (∀ xs, m.isSupportedBy xs = m.foldLeaves (· && ·) (fun _ => isFreeOnlyOf xs) 0) ∧
    (∀ x, m.containsFree x = m.foldLeaves (· || ·) (fun _ => isFree x) 0) ∧
    (∀ i, m.containsVar i = m.foldLeaves (· || ·) isVar i) ∧
    (∀ h, m.containsHole h = m.foldLeaves (· || ·) (fun _ => isHoleOf h) 0) := by
  refine ⟨fun xs k hk => openAt_close (in_of_containsVar hk) xs, fun xs k hxs hfree hk => ?_,
    fun xs k => openAt_eq_mapVars xs k m, fun n k => lift_eq_mapVars n k m, fun xs k => close_eq_mapVars xs k m,
    fun values => substFree_eq_mapVars _ 0 m, fun value => fillHolesApp_eq_fillEachApp value m [],
    fun value depth => resolveHoles_eq_resolveEach value depth m, fun xs => isSupportedBy_eq_foldLeaves xs 0 m,
    fun x => containsFree_eq_foldLeaves x 0 m, fun i => containsVar_eq_foldLeaves i m,
    fun h => containsHole_eq_foldLeaves h 0 m⟩
  have hm := (in_of_containsVar hk).of_forall_containsFree fun x hx => hx
  exact close_openAt hxs hm fun x hx => Bool.eq_false_iff.mp (hfree x hx)

/-- Two hypotheses below a binder, closed over at a depth at which an index is loose, and opened again. -/
theorem traversals_exact_pair :
    let x : Id := { number := 0 }
    let y : Id := { number := 1 }
    let closed := lam ⟨"z"⟩ (.app (.var 0) (.var 2)) (.app (.var 2) (.var 3))
    let opened := lam ⟨"z"⟩ (.app (.var 0) (.free x)) (.app (.free y) (.free x))
    (opened.close [x, y] 1).openAt [.free x, .free y] 1 = opened ∧
      (closed.openAt [.free x, .free y] 1).close [x, y] 1 = closed := by
  intro x y closed opened
  refine ⟨(traversals_exact opened).1 [x, y] 1 fun i hi => ?_,
    (traversals_exact closed).2.1 [x, y] 1 (by decide) (by decide) fun i hi => ?_⟩
  · exact containsVar_of_looseBound (Nat.le_trans (by decide) hi)
  · exact containsVar_of_looseBound (Nat.le_trans (by decide) hi)

end Term

end ProofAssistant
