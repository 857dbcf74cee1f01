import ConceptQuery.Text.Blank
import ConceptQuery.Text.Dotted
import ConceptQuery.Text.NameCharacter

/-! # What stands at the cursor

The word under the cursor, the text before it on its line, the call it is inside
of, and cutting a long text short. Lines end at a newline and nowhere else, so a
carriage return stays part of its line.
-/
namespace ConceptQuery.Text

/-- The length of the longest front of `cs` made of name characters. -/
def nameLength (cs : List Char) : Nat :=
  (cs.takeWhile isNameCharacter).length

/-- First index and past-the-end index of the word that holds index `position`. -/
def wordBounds? (line : List Char) (position : Nat) : Option (Nat × Nat) :=
  match line.drop position with
  | [] => none
  | c :: rest =>
    if isNameCharacter c then
      some (position - nameLength (line.take position).reverse, position + 1 + nameLength rest)
    else none

def wordAt? (line : List Char) (position : Nat) : Option (List Char) :=
  (wordBounds? line position).map fun (start, stop) => (line.take stop).drop start

structure OpenCall where
  name : String
  commas : Nat
deriving DecidableEq

/-- Reads the text before the cursor backwards. `closed` counts the closing
parentheses still to be matched and `commas` the commas passed. -/
def openCallBackwards : List Char → Nat → Nat → Option OpenCall
  | [], _, _ => none
  | ')' :: rest, closed, commas => openCallBackwards rest (closed + 1) commas
  | '(' :: rest, closed + 1, commas => openCallBackwards rest closed commas
  | '(' :: rest, 0, commas =>
    some ⟨String.ofList (trim (rest.takeWhile isNameCharacter).reverse), commas⟩
  | ',' :: rest, closed, commas => openCallBackwards rest closed (commas + 1)
  | _ :: rest, closed, commas => openCallBackwards rest closed commas

/-- The innermost parenthesis that is still open at the end of the text, with the
name written directly before it and the number of commas after it, those of calls
that have closed again included. -/
def openCall? (before : List Char) : Option OpenCall :=
  openCallBackwards before.reverse 0 0

def lines (text : List Char) : List (List Char) :=
  Dotted.splitOn '\n' text

/-- The first `column` characters of a line; lines and columns count from zero. -/
def before? (text : List Char) (line column : Nat) : Option (List Char) :=
  (lines text)[line]?.map (List.take column)

/-- A text longer than `limit` characters is cut to its first `keep` and marked. -/
def shorten (text : String) (limit keep : Nat) : String :=
  if text.toList.length ≤ limit then text
  else String.ofList (text.toList.take keep) ++ "..."

end ConceptQuery.Text
