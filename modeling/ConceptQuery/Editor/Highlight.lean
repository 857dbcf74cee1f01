import ConceptQuery.Editor.FunctionDoc
import ConceptQuery.Tree.Leaf

/-! # Highlighting

Keywords, operators, type names and identifiers are highlighted, each by the node
that it hangs from. Highlights are sent as one list of numbers, five for each, with
places relative to the highlight before.
-/
namespace ConceptQuery

inductive HighlightType where
  | keyword | symbol | function | operator | column | datatype
deriving DecidableEq, Inhabited

namespace HighlightType

/-- The order of the legend. -/
def all : List HighlightType := [keyword, symbol, function, operator, column, datatype]

def name : HighlightType → String
  | keyword => "keyword"
  | symbol => "variable"
  | function => "function"
  | operator => "operator"
  | column => "parameter"
  | datatype => "type"

/-- The place in the legend. -/
def index : HighlightType → Nat
  | keyword => 0
  | symbol => 1
  | function => 2
  | operator => 3
  | column => 4
  | datatype => 5

end HighlightType

structure Highlight where
  line : Nat
  column : Nat
  /-- How many characters it covers. -/
  length : Nat
  type : HighlightType
  /-- A set of modifiers, one bit for each. -/
  modifiers : Nat := 0
deriving DecidableEq, Inhabited

namespace Highlight

/-- The modifiers from the lowest bit up. -/
def modifierNames : List String :=
  ["deprecated", "readonly", "defaultLibrary", "definition", "declaration"]

/-- Marks a function that comes with the language. -/
def libraryBit : Nat := 4

/-- Marks a name where it is declared. -/
def definitionBit : Nat := 8

def identifierType (parent : NodeKind) (text : String) : HighlightType × Nat :=
  match parent with
  | .callExpression => (.function, if (FunctionDoc.find? text).isSome then libraryBit else 0)
  | .columnAlias => (.column, 0)
  | _ => (.symbol, if parent.isDefinition then definitionBit else 0)

def typeOf? (parent : NodeKind) (leaf : Leaf) : Option (HighlightType × Nat) :=
  match leaf.kind with
  | .keyword => some (.keyword, 0)
  | .typeName => some (.datatype, 0)
  | .operator => some (.operator, 0)
  | .identifier => some (identifierType parent leaf.text)
  | .string | .number | .punctuation => none

/-- A word is highlighted if its place is known and it stays on one line. -/
def ofLeaf? (parent : NodeKind) (leaf : Leaf) : Option Highlight :=
  match typeOf? parent leaf, leaf.line, leaf.column with
  | some (type, modifiers), some line, some column =>
    if leaf.endLine.all (· = line) then
      some { line := line - 1, column := column - 1, length := leaf.text.toList.length
             type, modifiers }
    else none
  | _, _, _ => none

mutual
/-- The highlights of a tree in the order of its leaves. -/
def inTree : Tree Leaf → List Highlight
  | .leaf _ => []
  | .node kind children => inChildren kind children

def inChildren (parent : NodeKind) : List (Tree Leaf) → List Highlight
  | [] => []
  | .leaf leaf :: rest => (ofLeaf? parent leaf).toList ++ inChildren parent rest
  | .node kind children :: rest => inTree (.node kind children) ++ inChildren parent rest
end

/-- Not after the other, by line and then by column. -/
def notAfter (a b : Highlight) : Bool :=
  a.line < b.line || (a.line = b.line && a.column ≤ b.column)

/-- The highlights of a tree in the order of their places. -/
def ofTree (tree : Tree Leaf) : List Highlight :=
  (inTree tree).mergeSort notAfter

/-- The numbers of one highlight, relative to the place before. -/
def encodeFrom (line column : Nat) (h : Highlight) : List Nat :=
  let lines := h.line - line
  [lines, if lines = 0 then h.column - column else h.column, h.length, h.type.index, h.modifiers]

/-- Five numbers for each of the highlights behind a place. -/
def encodeAfter (line column : Nat) : List Highlight → List Nat
  | [] => []
  | h :: rest => encodeFrom line column h ++ encodeAfter h.line h.column rest

def encode (highlights : List Highlight) : List Nat :=
  encodeAfter 0 0 highlights

end Highlight
end ConceptQuery
