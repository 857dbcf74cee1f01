import ConceptQuery.Text.Blank
import ConceptQuery.Text.Cursor
import ConceptQuery.Tree.Leaf

/-! # Trailing comments

A comment with a number sign behind a declaration, on the same line, describes
what is declared.
-/
namespace ConceptQuery.Compile

def dropReturn (line : List Char) : List Char :=
  if line.getLast? = some '\r' then line.dropLast else line

/-- Lines without their ends. Only a line that a newline ends can lose a carriage
return, and nothing after the last newline is no line. -/
def closeLines : List (List Char) → List (List Char)
  | [] => []
  | [last] => if last.isEmpty then [] else [last]
  | line :: more => dropReturn line :: closeLines more

def linesOf (text : String) : List (List Char) :=
  closeLines (Text.lines text.toList)

/-- The text after the number sign that follows the word on its line. -/
def trailingComment? (lines : List (List Char)) (leaf : Leaf) : Option String := do
  let endLine ← leaf.endLine
  let line ← if endLine = 0 then none else lines[endLine - 1]?
  let endColumn ← leaf.endColumn
  match Text.trim (line.drop (endColumn - 1)) with
  | '#' :: comment =>
    let comment := Text.trim comment
    if comment.isEmpty then none else some (String.ofList comment)
  | _ => none

end ConceptQuery.Compile
