import ProofAssistant.Proofs.Comparison
import ProofAssistant.Proofs.Traversals

/-!
# Places of a term

A place is the way from the root of a term to one of its parts. Occurrences of a pattern are places, and to abstract
them is to put an index there and to shift the loose indices elsewhere (`Term.abstractAt_eq`).
-/

namespace ProofAssistant

open List

/-- A part of a term: of an application the function or the argument, of a binder the type or the body. -/
inductive Branch where
  | fn
  | arg
  | type
  | body
deriving DecidableEq

namespace Term

variable {m p r : Term} {π : List Branch} {selected : Nat → Bool} {depth seen : Nat}

/-- A part of a term, if it has such a part. -/
def part? : Term → Branch → Option Term
  | .app f _, .fn => some f
  | .app _ a, .arg => some a
  | .lam _ t _, .type | .pi _ _ t _, .type => some t
  | .lam _ _ b, .body | .pi _ _ _ b, .body => some b
  | _, _ => none

/-- The part at a place. -/
def at? (m : Term) : List Branch → Option Term
  | [] => some m
  | part :: π => (m.part? part).bind (·.at? π)

/-- The term with `r` for the part at a place. -/
def putAt : Term → List Branch → (r : Term) → Term
  | _, [], r => r
  | .app f a, .fn :: π, r => .app (f.putAt π r) a
  | .app f a, .arg :: π, r => .app f (a.putAt π r)
  | .lam x t b, .type :: π, r => .lam x (t.putAt π r) b
  | .lam x t b, .body :: π, r => .lam x t (b.putAt π r)
  | .pi x i t b, .type :: π, r => .pi x i (t.putAt π r) b
  | .pi x i t b, .body :: π, r => .pi x i t (b.putAt π r)
  | m, _ :: _, _ => m

/-- All places, every one before those below it, and these from the left. -/
def places : Term → List (List Branch)
  | .app f a => [] :: (f.places.map (.fn :: ·) ++ a.places.map (.arg :: ·))
  | .lam _ t b | .pi _ _ t b => [] :: (t.places.map (.type :: ·) ++ b.places.map (.body :: ·))
  | _ => [[]]

/-- The places of the parts that are written like the pattern. -/
def occurrences (m p : Term) : List (List Branch) :=
  m.places.filter fun π => (m.at? π).any (·.alphaEq p)

/-- The number of nodes. -/
def size : Term → Nat
  | .app f a => f.size + a.size + 1
  | .lam _ t b | .pi _ _ t b => t.size + b.size + 1
  | _ => 1

lemma Alike.size {a b : Term} (h : a.Alike b) : a.size = b.size := by
  induction h with
  | app _ _ ih ih' | lam _ _ ih ih' | pi _ _ ih ih' => simp only [Term.size, ih, ih']
  | _ => rfl

lemma size_at? (h : m.at? π = some r) : r.size ≤ m.size := by
  induction π generalizing m with
  | nil => exact Nat.le_of_eq (congrArg size (Option.some.inj h).symm)
  | cons part π ih =>
    obtain ⟨q, hq, h⟩ := Option.bind_eq_some_iff.mp h
    refine Nat.le_trans (ih h) ?_
    fun_cases part? m part <;> simp_all [part?, size] <;> omega

/-- A pattern does not occur in what is smaller. -/
lemma occurrences_of_size (h : m.size < p.size) : m.occurrences p = [] := by
  refine filter_eq_nil_iff.mpr fun π _ hπ => ?_
  cases hr : m.at? π with
  | none => simp [hr] at hπ
  | some r =>
    rw [hr] at hπ
    have hsize := (alphaEq_iff.mp hπ).size
    have hle := size_at? hr
    omega

/-- The occurrences in a term of two parts. -/
lemma filter_places {m l r : Term} {left right : Branch} (hleft : m.part? left = some l) (hright : m.part? right = some r)
    (p : Term) :
    ([] :: (l.places.map (left :: ·) ++ r.places.map (right :: ·))).filter (fun π => (m.at? π).any (·.alphaEq p)) =
      (if m.alphaEq p then [[]] else []) ++
        ((l.occurrences p).map (left :: ·) ++ (r.occurrences p).map (right :: ·)) := by
  simp only [occurrences, at?, hleft, hright, Option.bind_some, filter_cons, filter_append, filter_map,
    Function.comp_def, Option.any_some]
  split <;> rfl

lemma occurrences_app (f a p : Term) : (app f a).occurrences p =
    (if (app f a).alphaEq p then [[]] else []) ++
      ((f.occurrences p).map (.fn :: ·) ++ (a.occurrences p).map (.arg :: ·)) :=
  filter_places rfl rfl p

lemma occurrences_lam (x : Name) (t b p : Term) : (lam x t b).occurrences p =
    (if (lam x t b).alphaEq p then [[]] else []) ++
      ((t.occurrences p).map (.type :: ·) ++ (b.occurrences p).map (.body :: ·)) :=
  filter_places rfl rfl p

lemma occurrences_pi (x : Name) (i : Bool) (t b p : Term) : (pi x i t b).occurrences p =
    (if (pi x i t b).alphaEq p then [[]] else []) ++
      ((t.occurrences p).map (.type :: ·) ++ (b.occurrences p).map (.body :: ·)) :=
  filter_places rfl rfl p

/-- Occurrences do not overlap. -/
lemma occurrences_of_alike (h : m.alphaEq p) : m.occurrences p = [[]] := by
  have hsize := (alphaEq_iff.mp h).size
  cases m with
  | app f a =>
    simp only [size] at hsize
    rw [occurrences_app, if_pos h, occurrences_of_size (by omega), occurrences_of_size (by omega)]
    rfl
  | lam x t b | pi x i t b =>
    simp only [size] at hsize
    simp only [occurrences_lam, occurrences_pi, if_pos h, occurrences_of_size (m := t) (p := p) (by omega),
      occurrences_of_size (m := b) (p := p) (by omega)]
    rfl
  | _ => simp [occurrences, places, at?, h]

/-! ## Abstraction -/

lemma lift_var (depth i : Nat) : (var i).lift 1 depth = if depth ≤ i then var (i + 1) else var i := by
  rw [lift_eq_mapVars, mapVars, liftVar]
  split <;> split <;> first | rfl | omega

/-- Abstraction keeps what the index has, and the rest of the term with its loose indices shifted. -/
lemma Leafwise.abstractAt {P Q : Nat → Term → Prop} (hP : Leafwise P) (hQ : Leafwise Q) (hput : ∀ k, Q k (.var k))
    (hlift : ∀ k m, P k m → Q k (m.lift 1 k)) (hm : P depth m) : Q depth (m.abstractAt p selected depth seen).1 := by
  fun_induction Term.abstractAt m p selected depth seen with
  | case1 m depth => exact hput depth
  | case2 m depth => exact hlift depth m hm
  | case3 depth seen i => exact lift_var depth i ▸ hlift depth _ hm
  | case4 depth seen f a f' seen₁ hf a' seen₂ ha _ ihf iha =>
    rw [hf] at ihf
    rw [ha] at iha
    rw [hP.app] at hm
    exact hQ.app.mpr ⟨ihf hm.1, iha hm.2⟩
  | case5 depth seen x t b t' seen₁ ht b' seen₂ hb _ iht ihb
  | case6 depth seen x i t b t' seen₁ ht b' seen₂ hb _ iht ihb =>
    rw [ht] at iht
    rw [hb] at ihb
    simp only [hP.lam, hP.pi] at hm
    simp only [hQ.lam, hQ.pi]
    exact ⟨iht hm.1, ihb hm.2⟩
  | case7 depth seen m hvar happ hlam hpi =>
    have hlifted := hlift depth m hm
    cases m with
    | var i => exact absurd rfl (hvar i)
    | app f a => exact absurd rfl (happ f a)
    | lam x t b => exact absurd rfl (hlam x t b)
    | pi x i t b => exact absurd rfl (hpi x i t b)
    | _ => simpa [lift_eq_mapVars, mapVars] using hlifted

/-- Indices put at places below `depth` binders. -/
def putVars (depth : Nat) (πs : List (List Branch)) (m : Term) : Term :=
  πs.foldl (fun m π => m.putAt π (.var (depth + π.count .body))) m

lemma putVars_map {part : Branch} {g : Term → Term} (hg : ∀ m π r, (g m).putAt (part :: π) r = g (m.putAt π r))
    (depth : Nat) (πs : List (List Branch)) (m : Term) :
    putVars depth (πs.map (part :: ·)) (g m) = g (putVars (depth + [part].count .body) πs m) := by
  induction πs generalizing m with
  | nil => rfl
  | cons π πs ih =>
    simp only [putVars, map_cons, foldl_cons, hg] at ih ⊢
    rw [ih]
    simp only [count_cons, count_nil]
    congr 4
    omega

/-- Those whose numbers are selected, if they are counted after `seen`. -/
def select (selected : Nat → Bool) (seen : Nat) (πs : List (List Branch)) : List (List Branch) :=
  ((πs.zipIdx (seen + 1)).filter (selected ·.2)).map Prod.fst

lemma select_append (πs πs' : List (List Branch)) :
    select selected seen (πs ++ πs') = select selected seen πs ++ select selected (seen + πs.length) πs' := by
  simp [select, zipIdx_append, Nat.add_right_comm]

lemma select_map (g : List Branch → List Branch) (πs : List (List Branch)) :
    select selected seen (πs.map g) = (select selected seen πs).map g := by
  simp [select, zipIdx_map, filter_map, Function.comp_def]

/-- Indices put at places in two parts of a term. -/
lemma putVars_select (part part' : Branch) (g : Term → Term → Term)
    (hg : ∀ m m' π r, (g m m').putAt (part :: π) r = g (m.putAt π r) m')
    (hg' : ∀ m m' π r, (g m m').putAt (part' :: π) r = g m (m'.putAt π r)) (πs πs' : List (List Branch)) (m m' : Term) :
    putVars depth (select selected seen (πs.map (part :: ·) ++ πs'.map (part' :: ·))) (g m m') =
      g (putVars (depth + [part].count .body) (select selected seen πs) m)
        (putVars (depth + [part'].count .body) (select selected (seen + πs.length) πs') m') := by
  rw [select_append, select_map, select_map, length_map, putVars, foldl_append, ← putVars, ← putVars,
    putVars_map (fun m π r => hg m m' π r), putVars_map (hg' _)]

/-- An index is put for the occurrences that are selected, and nothing else changes. -/
lemma abstractAt_eq (m p : Term) (selected : Nat → Bool) (depth seen : Nat) : m.abstractAt p selected depth seen =
      (putVars depth (select selected seen (m.occurrences p)) (m.lift 1 depth), seen + (m.occurrences p).length) := by
  fun_induction abstractAt m p selected depth seen with
  | case1 m depth seen h hsel => simp [occurrences_of_alike h, select, hsel, putVars, putAt]
  | case2 m depth seen h hsel => simp [occurrences_of_alike h, select, hsel, putVars]
  | case3 depth seen i h =>
    have hnone : (var i).occurrences p = [] := by simp [occurrences, places, at?, h]
    simp [hnone, lift_var, select, putVars]
  | case4 depth seen f a f' seen₁ hf a' seen₂ ha h ihf iha =>
    obtain ⟨rfl, rfl⟩ := Prod.mk.inj (hf.symm.trans ihf)
    obtain ⟨rfl, rfl⟩ := Prod.mk.inj (ha.symm.trans iha)
    rw [occurrences_app, if_neg h, nil_append, lift_app,
      putVars_select .fn .arg app (fun _ _ _ _ => rfl) fun _ _ _ _ => rfl]
    simp [Nat.add_assoc]
  | case5 depth seen x t b t' seen₁ ht b' seen₂ hb h iht ihb =>
    obtain ⟨rfl, rfl⟩ := Prod.mk.inj (ht.symm.trans iht)
    obtain ⟨rfl, rfl⟩ := Prod.mk.inj (hb.symm.trans ihb)
    rw [occurrences_lam, if_neg h, nil_append, lift_lam,
      putVars_select .type .body (lam x) (fun _ _ _ _ => rfl) fun _ _ _ _ => rfl]
    simp [Nat.add_assoc]
  | case6 depth seen x i t b t' seen₁ ht b' seen₂ hb h iht ihb =>
    obtain ⟨rfl, rfl⟩ := Prod.mk.inj (ht.symm.trans iht)
    obtain ⟨rfl, rfl⟩ := Prod.mk.inj (hb.symm.trans ihb)
    rw [occurrences_pi, if_neg h, nil_append, lift_pi,
      putVars_select .type .body (pi x i) (fun _ _ _ _ => rfl) fun _ _ _ _ => rfl]
    simp [Nat.add_assoc]
  | case7 depth seen m hvar happ hlam hpi h =>
    cases m with
    | var i => exact absurd rfl (hvar i)
    | app f a => exact absurd rfl (happ f a)
    | lam x t b => exact absurd rfl (hlam x t b)
    | pi x i t b => exact absurd rfl (hpi x i t b)
    | _ => simp [occurrences, places, at?, h, select, putVars, lift_eq_mapVars, mapVars]

lemma select_one (k seen : Nat) (πs : List (List Branch)) :
    select (k == ·) seen πs = if seen < k then πs[k - seen - 1]?.toList else [] := by
  induction πs generalizing seen with
  | nil => simp [select]
  | cons π πs ih =>
    have hcons := @select_append (k == ·) seen [π] πs
    rw [singleton_append, ih] at hcons
    rw [hcons]
    rcases Nat.lt_trichotomy k (seen + 1) with hk | rfl | hk
    · simp [select, Nat.ne_of_lt hk, Nat.not_lt.mpr (Nat.le_of_lt_succ hk), Nat.not_lt.mpr (Nat.le_of_lt hk)]
    · simp [select]
    · have hsub : k - seen - 1 = k - (seen + 1) - 1 + 1 := by omega
      simp [select, Nat.ne_of_gt hk, hk, Nat.lt_of_succ_lt hk, hsub]

end Term

end ProofAssistant
