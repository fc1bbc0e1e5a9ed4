import ProofAssistant.Prelude

/-!
# The showcase

Examples on top of the prelude: tactic scripts, induction, chains of relations and computation.
-/

namespace ProofAssistant

namespace Showcase

open Prelude

/-- A statement with its proof. -/
def prove (n : String) (statement proof : Expr) : Command :=
  .proposition ⟨n⟩ [] statement proof

/-- A proof by tactics, one after the other. -/
def byTactics (ts : List Tactic) : Expr := .script (.seq ts)

/-- Moves binders into the context under the given names. -/
def intro (ns : List String) : Tactic := .intro (ns.map Name.mk)

/-- Conjunctions commute. -/
def andSwap : Command :=
  let a := var "a"
  let b := var "b"
  prove "and_swap"
    (forAll [bind "a" prop, bind "b" prop] (.arrow (call "And" [a, b]) (call "And" [b, a])))
    (byTactics [intro ["a", "b", "h"], .cases ⟨"h"⟩ [⟨"ha"⟩, ⟨"hb"⟩], .split, .exact (var "hb"),
      .exact (var "ha")])

/-- Disjunctions commute. -/
def orSwap : Command :=
  let a := var "a"
  let b := var "b"
  prove "or_swap"
    (forAll [bind "a" prop, bind "b" prop] (.arrow (call "Or" [a, b]) (call "Or" [b, a])))
    (byTactics [intro ["a", "b", "h"], .cases ⟨"h"⟩ [],
      .all (.orElse (.seq [.apply (var "Or.inl"), .assumption])
        (.seq [.apply (var "Or.inr"), .assumption]))])

/-- A power by one more, with the factor at the end. -/
def powSucc : Command :=
  let nat := var "Nat"
  let a := var "a"
  let n := var "n"
  prove "pow_succ'"
    (forAll [bind "a" nat, bind "n" nat]
      (.eq (call "pow" [a, call "Nat.succ" [n]]) (call "Mul.mul" [call "pow" [a, n], a])))
    (byTactics [intro ["a", "n"], .induction ⟨"n"⟩ [⟨"n"⟩, ⟨"ih"⟩], .all (.apply (var "Nat.mul_comm"))])

/-- Nothing before a list. -/
def nilAppend : Command :=
  let l := var "l"
  prove "List.nil_append"
    (forAll [bind "l" (call "List" [var "Nat"])] (.eq (call "List.append" [var "List.nil", l]) l))
    (byTactics [intro ["l"], .rfl])

/-- Rewriting from right to left. -/
def addZeroOfEq : Command :=
  let nat := var "Nat"
  let a := var "a"
  let b := var "b"
  prove "add_zero_of_eq"
    (forAll [bind "a" nat, bind "b" nat]
      (.arrow (.eq a b) (.eq (call "Nat.add" [b, var "Nat.zero"]) a)))
    (byTactics [intro ["a", "b", "h"], .rw (var "h") true none, .rfl])

/-- Simplification. -/
def zeroAddSelf : Command :=
  let n := var "n"
  prove "zero_add_self"
    (forAll [bind "n" (var "Nat")] (.eq (call "Nat.add" [var "Nat.zero", n]) n))
    (byTactics [intro ["n"], .simp [var "Nat.zero_add"]])

/-- A chain of two relations. -/
def leOfEqOfLe : Command :=
  let nat := var "Nat"
  let a := var "a"
  let b := var "b"
  let c := var "c"
  let le (x y : Expr) := call "Nat.le" [x, y]
  let chain : Expr := .chain a [.mk (var "Eq") b (var "h₁"), .mk (var "Nat.le") c (var "h₂")]
  prove "le_of_eq_of_le'"
    (forAll [bind "a" nat, bind "b" nat, bind "c" nat] (arrows [.eq a b, le b c] (le a c)))
    (["a", "b", "c", "h₁", "h₂"].foldr (fun x e => .lam ⟨x⟩ none e) chain)

/-- A numeral as an expression. -/
def numeral : Nat → Expr
  | 0 => var "Nat.zero"
  | n + 1 => call "Nat.succ" [numeral n]

/-- A decision. -/
def twoLeFour : Command :=
  prove "two_le_four" (call "Nat.le" [numeral 2, numeral 4]) (.script .decide)

/-- One goal at a time. -/
def andSelfIntro : Command :=
  let a := var "a"
  prove "and_self_intro" (forAll [bind "a" prop] (.arrow a (call "And" [a, a])))
    (byTactics [intro ["a", "h"], .split, .focus (.orElse .split (.exact (var "h"))), .assumption])

/-- All commands of the showcase. -/
def commands : List Command :=
  [andSwap, orSwap, powSucc, nilAppend, addZeroOfEq, zeroAddSelf, leOfEqOfLe, twoLeFour,
    andSelfIntro]

end Showcase

/-! ## Checking everything -/

/-- The parts of the development. -/
inductive Part where
  | prelude
  | showcase
deriving DecidableEq

namespace Part

/-- The commands of a part. -/
def commands : Part → List Command
  | .prelude => Prelude.commands
  | .showcase => Showcase.commands

/-- What is said of a part in which a command fails. -/
def print : Part → String
  | .prelude => "prelude error"
  | .showcase => "library error"

end Part

/-- A command of a part that fails. -/
structure PartFailure where
  part : Part
  failure : CommandFailure

/-- The texts of a failure, the outermost first. -/
def PartFailure.trace (e : PartFailure) : List Text :=
  (e.part.print : Text) :: e.failure.trace

/-- Checks the prelude and the showcase. -/
def Session.checkAll : SessionM PartFailure Unit :=
  [Part.prelude, .showcase].forM fun p => (Session.executeAll p.commands).adapt (⟨p, ·⟩)

end ProofAssistant
