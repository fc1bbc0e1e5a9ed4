import ProofAssistant.Session

/-!
# The prelude

The declarations that every development starts from: equality, the logical connectives, natural
numbers with their order, lists, and a class of types with a multiplication.
-/

namespace ProofAssistant

namespace Prelude

/-! ## Writing declarations -/

/-- A name as an expression. -/
def var (n : String) : Expr := .ident ⟨n⟩

/-- A function on arguments. -/
def call (f : String) (args : List Expr) : Expr := (var f).apply args

/-- The sort of propositions. -/
def prop : Expr := .sort .zero

/-- The sort of types. -/
def type : Expr := .sort .one

/-- The universe parameter `u` as a sort. -/
def sortU : Expr := .sort (.param ⟨"u"⟩)

/-- The sort of types in the universe `u`. -/
def typeU : Expr := .sort (.succ (.param ⟨"u"⟩))

/-- Functions of one argument after another. -/
def arrows (domains : List Expr) (codomain : Expr) : Expr :=
  domains.foldr .arrow codomain

/-- An explicit binder. -/
def bind (n : String) (type : Expr) : Binder := { name := ⟨n⟩, type }

/-- An implicit binder. -/
def implicit (n : String) (type : Expr) : Binder := { name := ⟨n⟩, type, implicit := true }

/-- A product over binders. -/
def forAll (bs : List Binder) (body : Expr) : Expr := Binder.telescope bs body

/-- A postulate. -/
def postulate (n : String) (levelParams : List String) (type : Expr) : Command :=
  .postulate ⟨n⟩ (levelParams.map Name.mk) type

/-- A definition without universe parameters. -/
def define (n : String) (type value : Expr) : Command :=
  .definition ⟨n⟩ [] type value

/-- An inductive type. -/
def family (n : String) (levelParams : List String) (params : List Binder) (sort : Level)
    (ctors : List (String × List Binder)) : Command :=
  .family ⟨⟨n⟩, levelParams.map Name.mk, params, sort, ctors.map fun (c, fields) => ⟨⟨c⟩, fields⟩⟩

/-- A definition by clauses. -/
def clauses (n : String) (levelParams : List String) (type : Expr)
    (cs : List (List Pattern × Expr)) : Command :=
  .clauses ⟨⟨n⟩, levelParams.map Name.mk, type, cs.map fun (ps, rhs) => ⟨ps, rhs⟩⟩

/-- A transitivity rule. -/
def trans (left right rule : String) : Command :=
  .transitivity ⟨left⟩ ⟨right⟩ ⟨rule⟩

/-- A pattern that matches everything. -/
def any (n : String) : Pattern := .var ⟨n⟩

/-- A pattern for a constructor whose fields are variables. -/
def ctor (n : String) (fields : List String) : Pattern := .ctor ⟨n⟩ (fields.map any)

/-! ## The declarations -/

/-- Equality and its rules, and the stand-in for proofs that are left out. -/
def equality : List Command :=
  let a := var "a"
  let b := var "b"
  let c := var "c"
  let α := var "α"
  let onAlpha (ns : List String) : List Binder :=
    implicit "α" sortU :: ns.map (implicit · α)
  [ postulate "Eq" ["u"] (forAll (onAlpha []) (arrows [α, α] prop)),
    postulate "Eq.refl" ["u"] (forAll (onAlpha [] ++ [bind "a" α]) (.eq a a)),
    postulate "Eq.subst" ["u"]
      (forAll (onAlpha ["a", "b"] ++ [bind "motive" (.arrow α prop)])
        (arrows [.eq a b, call "motive" [a]] (call "motive" [b]))),
    postulate "Eq.symm" ["u"] (forAll (onAlpha ["a", "b"]) (.arrow (.eq a b) (.eq b a))),
    postulate "Eq.trans" ["u"]
      (forAll (onAlpha ["a", "b", "c"]) (arrows [.eq a b, .eq b c] (.eq a c))),
    postulate "congrArg" ["u", "v"]
      (forAll
        [implicit "α" sortU, implicit "β" (.sort (.param ⟨"v"⟩)), implicit "a" α, implicit "b" α,
          bind "f" (.arrow α (var "β"))]
        (.arrow (.eq a b) (.eq (call "f" [a]) (call "f" [b])))),
    postulate "sorryAx" ["u"] (forAll [bind "α" sortU] α),
    trans "Eq" "Eq" "Eq.trans" ]

/-- Truth, the connectives and the existential quantifier. -/
def logic : List Command :=
  let a := var "a"
  let b := var "b"
  let props := [bind "a" prop, bind "b" prop]
  [ family "True" [] [] .zero [("intro", [])],
    family "False" [] [] .zero [],
    family "And" [] props .zero [("intro", [bind "left" a, bind "right" b])],
    family "Or" [] props .zero [("inl", [bind "h" a]), ("inr", [bind "h" b])],
    define "Not" (.arrow prop prop) (.lam ⟨"a"⟩ none (.arrow a (var "False"))),
    family "Exists" ["u"] [implicit "α" sortU, bind "p" (.arrow (var "α") prop)] .zero
      [("intro", [bind "w" (var "α"), bind "h" (call "p" [var "w"])])] ]

/-- Natural numbers, addition, multiplication and the order. -/
def naturals : List Command :=
  let nat := var "Nat"
  let zero := var "Nat.zero"
  let succ (e : Expr) := call "Nat.succ" [e]
  let le (x y : Expr) := call "Nat.le" [x, y]
  let nats (ns : List String) : List Binder := ns.map (implicit · nat)
  let a := var "a"
  let b := var "b"
  let c := var "c"
  let m := var "m"
  let n := var "n"
  [ family "Nat" [] [] .one [("zero", []), ("succ", [bind "n" nat])],
    clauses "Nat.add" [] (arrows [nat, nat] nat)
      [([any "n", ctor "zero" []], n),
        ([any "n", ctor "succ" ["m"]], succ (call "Nat.add" [n, m]))],
    clauses "Nat.mul" [] (arrows [nat, nat] nat)
      [([any "n", ctor "zero" []], zero),
        ([any "n", ctor "succ" ["m"]], call "Nat.add" [call "Nat.mul" [n, m], n])],
    postulate "Nat.zero_add" [] (forAll [bind "n" nat] (.eq (call "Nat.add" [zero, n]) n)),
    postulate "Nat.le" [] (arrows [nat, nat] prop),
    postulate "Nat.le_refl" [] (forAll [bind "n" nat] (le n n)),
    postulate "Nat.le_step" [] (forAll (nats ["n", "m"]) (.arrow (le n m) (le n (succ m)))),
    postulate "Nat.le_trans" [] (forAll (nats ["a", "b", "c"]) (arrows [le a b, le b c] (le a c))),
    postulate "Nat.le_of_eq_of_le" []
      (forAll (nats ["a", "b", "c"]) (arrows [.eq a b, le b c] (le a c))),
    postulate "Nat.le_of_le_of_eq" []
      (forAll (nats ["a", "b", "c"]) (arrows [le a b, .eq b c] (le a c))),
    trans "Nat.le" "Nat.le" "Nat.le_trans",
    trans "Eq" "Nat.le" "Nat.le_of_eq_of_le",
    trans "Nat.le" "Eq" "Nat.le_of_le_of_eq" ]

/-- Lists. -/
def lists : List Command :=
  let α := var "α"
  let list := call "List" [α]
  [ family "List" ["u"] [bind "α" typeU] (.succ (.param ⟨"u"⟩))
      [("nil", []), ("cons", [bind "head" α, bind "tail" list])],
    clauses "List.append" ["u"] (forAll [implicit "α" typeU] (arrows [list, list] list))
      [([any "α", ctor "nil" [], any "l"], var "l"),
        ([any "α", ctor "cons" ["h", "s"], any "t"],
          call "List.cons" [var "h", call "List.append" [var "s", var "t"]])] ]

/-- The class of types with a multiplication, and powers of natural numbers. -/
def multiplication : List Command :=
  let nat := var "Nat"
  let α := var "α"
  let a := var "a"
  let b := var "b"
  let mul (x y : Expr) := call "Mul.mul" [x, y]
  [ family "Mul" [] [bind "α" type] .one [("mk", [bind "mul" (arrows [α, α] α)])],
    .classOf ⟨"Mul"⟩,
    clauses "Mul.mul" []
      (forAll [implicit "α" type, implicit "inst" (call "Mul" [α])] (arrows [α, α] α))
      [([any "α", ctor "mk" ["f"]], var "f")],
    define "instMulNat" (call "Mul" [nat]) (call "Mul.mk" [var "Nat.mul"]),
    .instanceOf ⟨"instMulNat"⟩ 100,
    postulate "Nat.mul_comm" [] (forAll [bind "a" nat, bind "b" nat] (.eq (mul a b) (mul b a))),
    clauses "pow" [] (arrows [nat, nat] nat)
      [([any "a", ctor "zero" []], call "Nat.succ" [var "Nat.zero"]),
        ([any "a", ctor "succ" ["n"]], mul a (call "pow" [a, var "n"]))] ]

/-- All commands of the prelude. -/
def commands : List Command :=
  equality ++ logic ++ naturals ++ lists ++ multiplication

end Prelude

end ProofAssistant
