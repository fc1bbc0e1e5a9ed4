import ProofAssistant.Character

/-!
# Names

A name is a text, read as components divided by dots. Two names are the same when their texts are;
they are ordered by code point, which is also their order as UTF-8 bytes.

`Name.isValid` says which names a declaration may take. Hypotheses are not held to it: a hypothesis
that has been shadowed gets an inaccessible name, which no declaration can have.
-/

namespace ProofAssistant

/-- A name of a declaration, a hypothesis, a binder or a universe parameter. -/
structure Name where
  text : String
deriving DecidableEq, Inhabited

namespace Name

instance : Ord Name := ⟨fun a b => compare a.text b.text⟩

/-- The name of a binder that is never referred to. -/
def anonymous : Name := ⟨"_"⟩

/-- A binder that is never referred to, by its name. -/
def isAnonymous (n : Name) : Bool :=
  n.text == "_"

/-- The components, from the left: at least one, and empty ones are kept. -/
def components (n : Name) : List (List Char) :=
  split n.text.toList
where
  split : List Char → List (List Char)
    | [] => [[]]
    | c :: cs =>
      match split cs with
      | [] => [[c]]
      | part :: parts => if c = '.' then [] :: part :: parts else (c :: part) :: parts

/-- A character that may start the name as a whole. -/
def isStart (c : Char) : Bool :=
  Character.isCasedLetter c || c == '_'

/-- A character that may start a component after a dot. -/
def isComponentStart (c : Char) : Bool :=
  isStart c || Character.isNumber c

/-- A character that may stand inside a component. -/
def isInner (c : Char) : Bool :=
  isComponentStart c || c == '\''

/-- A component whose first character meets `start` and whose other characters may stand inside. -/
def isComponent (start : Char → Bool) : List Char → Bool
  | [] => false
  | c :: cs => start c && cs.all isInner

/-- A name that a declaration may take, such as `Nat.succ` or `pow_succ'`. -/
def isValid (n : Name) : Bool :=
  match n.components with
  | [] => false
  | first :: rest => isComponent isStart first && rest.all (isComponent isComponentStart)

/-- The text after the last dot, such as `succ` for `Nat.succ`. -/
def lastComponent (n : Name) : String :=
  String.ofList (n.components.getLastD [])

/-- Adds a component: `Nat` and `rec` give `Nat.rec`. -/
def extend (n : Name) (suffix : String) : Name :=
  ⟨n.text ++ "." ++ suffix⟩

/-- The name a shadowed hypothesis is shown with. -/
def inaccessible (n : Name) : Name :=
  ⟨n.text ++ "✝"⟩

/-- The first of `n`, `n✝`, `n✝✝`, … that is not in `taken`, looking past at most `bound` taken
ones. These names are pairwise distinct, so `taken.length` is bound enough. -/
def firstFree (taken : List Name) : Nat → Name → Name
  | 0, n => n
  | bound + 1, n => if n ∈ taken then firstFree taken bound n.inaccessible else n

/-- How one character is written in a quoted text: by a short escape, by number, or as it is. -/
def quoteChar (c : Char) : String :=
  if c = Char.ofNat 0 then "\\0"
  else if c = '\t' then "\\t"
  else if c = '\r' then "\\r"
  else if c = '\n' then "\\n"
  else if c = '"' then "\\\""
  else if c = '\\' then "\\\\"
  else if Character.isUnmarked c then
    "\\u\x7b" ++ String.ofList (Nat.toDigits 16 c.toNat) ++ "\x7d"
  else c.toString

/-- The name as it is reported when it is no valid name: quoted, so that its extent is seen. -/
def quoted (n : Name) : String :=
  "Name(\"" ++ String.join (n.text.toList.map quoteChar) ++ "\")"

end Name

end ProofAssistant
