import ConceptQuery.Grammar.Document
import ConceptQuery.Tree.Leaf

/-! # Parse errors

Each fault of a document becomes one error with the line and column of its token
and the sorted names of what would have fitted. A document is either a tree
without faults or the list of all its errors.
-/
namespace ConceptQuery

structure ParseError where
  line : Nat
  column : Nat
  token : String
  expected : List String
deriving DecidableEq

namespace ParseError

def message (e : ParseError) : String :=
  "Unexpected token '" ++ e.token ++ "'. Expected one of:\n\x7b" ++
    ", ".intercalate e.expected ++ "\x7d"

def isAtEnd (e : ParseError) : Bool :=
  e.token = Grammar.endOfInput

/-- How many columns the error covers; at least one. -/
def width (e : ParseError) : Nat :=
  if e.isAtEnd then 1 else max e.token.toList.length 1

/-- Enters a name into a rising list that holds each name once. -/
def insertName (name : String) : List String → List String
  | [] => [name]
  | first :: rest =>
    if name < first then name :: first :: rest
    else if name = first then first :: rest
    else first :: insertName name rest

def ofFault (text : List Char) (fault : Fault) : ParseError :=
  let start := LineIndex.locate text fault.start
  { line := start.line + 1, column := start.column + 1, token := fault.found,
    expected := (fault.expected.map TokenKind.displayName).foldr insertName [] }

/-- What a failed document reports as a whole. -/
def summary (errors : List ParseError) : String :=
  "failed to parse document: " ++ toString errors.length ++ " error(s)"

end ParseError

/-- Reads a text into a tree of placed words, or into all its errors. -/
def parse (text : String) : Except (List ParseError) (Tree Leaf) :=
  let parsed := Parsed.ofText text
  match parsed.faults with
  | [] => .ok (parsed.tree.placed text.toList)
  | faults => .error (faults.map (ParseError.ofFault text.toList))

end ConceptQuery
