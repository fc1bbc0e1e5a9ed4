import ProofAssistant.Id

/-!
# Printed text

Numbers of identities mean nothing to a reader by themselves, so a printed text keeps them apart from
its other characters: a caller may renumber them before it shows the text. `Text.toString` shows them
as they are.
-/

namespace ProofAssistant

/-- A printed text, in which the numbers of identities are kept apart. -/
inductive Text where
  | literal (s : String)
  | number (n : Nat)
  | append (a b : Text)
deriving Inhabited

namespace Text

instance : Coe String Text := ⟨literal⟩
instance : Append Text := ⟨append⟩
instance : HAppend String Text Text := ⟨fun s t => append (literal s) t⟩
instance : HAppend Text String Text := ⟨fun t s => append t (literal s)⟩

/-- The texts one after another. -/
def concat (ts : List Text) : Text :=
  ts.foldr append (literal "")

/-- The texts one after another, divided by `separator`. -/
def joinWith (separator : String) (ts : List Text) : Text :=
  concat (ts.intersperse (literal separator))

/-- Encloses a text in round brackets if asked to. -/
def bracketIf (b : Bool) (t : Text) : Text :=
  if b then "(" ++ t ++ ")" else t

/-- The numbers in a text from the left, in front of `rest`. -/
def numbersThen : Text → (rest : List Nat) → List Nat
  | .literal _, rest => rest
  | .number n, rest => n :: rest
  | .append a b, rest => a.numbersThen (b.numbersThen rest)

/-- The numbers in a text from the left. -/
def numbers (t : Text) : List Nat :=
  t.numbersThen []

theorem numbersThen_eq_numbers_append (t : Text) (rest : List Nat) :
    t.numbersThen rest = t.numbers ++ rest := by
  induction t generalizing rest with
  | literal s => rfl
  | number n => rfl
  | append a b iha ihb =>
    rw [numbers, numbersThen, numbersThen, iha, iha (b.numbersThen []), ihb, ihb [],
      List.append_nil, List.append_assoc]

@[simp] theorem numbers_append (a b : Text) : (a.append b).numbers = a.numbers ++ b.numbers :=
  a.numbersThen_eq_numbers_append b.numbers

/-- Writes a text after `before`, with every number shown by `shown`. -/
def renderAfter (shown : Nat → String) : (before : String) → Text → String
  | before, .literal s => before ++ s
  | before, .number n => before ++ shown n
  | before, .append a b => renderAfter shown (renderAfter shown before a) b

/-- The text with every number shown by `shown`. -/
def render (shown : Nat → String) (t : Text) : String :=
  renderAfter shown "" t

theorem renderAfter_eq_append_render (shown : Nat → String) (before : String) (t : Text) :
    renderAfter shown before t = before ++ t.render shown := by
  induction t generalizing before with
  | literal s => simp [render, renderAfter]
  | number n => simp [render, renderAfter]
  | append a b iha ihb =>
    rw [render, renderAfter, renderAfter, iha, iha "", ihb, ihb ("" ++ a.render shown)]
    simp [String.append_assoc]

@[simp] theorem render_append (shown : Nat → String) (a b : Text) :
    (a.append b).render shown = a.render shown ++ b.render shown :=
  renderAfter_eq_append_render shown (a.render shown) b

/-- The text with every number as it is. -/
protected def toString (t : Text) : String :=
  t.render Nat.repr

end Text

/-- The name an identity was made with, if any, followed by its number. -/
def Id.print (id : Id) : Text :=
  (id.hint.map Name.text).getD "" ++ .number id.number

end ProofAssistant
