import ConceptQuery.Text.Ascii
import ConceptQuery.Text.LineIndex
import ConceptQuery.Token.Lexer
import ConceptQuery.Tree.Basic

/-! # Leaves with positions

What the compiler and the editor read: the words of a document without its
trivia, each with its kind and, where it is known, its place. Lines and columns
count from one, and the end column is the one after the last character.
-/
namespace ConceptQuery

inductive LeafKind where
  | identifier
  | keyword
  | typeName
  | string
  | number
  | operator
  | punctuation
deriving DecidableEq, Inhabited

def LeafKind.name : LeafKind → String
  | identifier => "identifier"
  | keyword => "keyword"
  | typeName => "type"
  | string => "string"
  | number => "number"
  | operator => "operator"
  | punctuation => "punctuation"

def LeafKind.all : List LeafKind :=
  [identifier, keyword, typeName, string, number, operator, punctuation]

structure Leaf where
  kind : LeafKind
  text : String
  line : Option Nat := none
  column : Option Nat := none
  endLine : Option Nat := none
  endColumn : Option Nat := none
deriving DecidableEq, Inhabited

namespace Leaf

/-- Places a word of one line. -/
def placedAt (leaf : Leaf) (line column : Nat) : Leaf :=
  { leaf with
    line := some line, column := some column,
    endLine := some line, endColumn := some (column + leaf.text.toList.length) }

def isIdentifier (leaf : Leaf) : Bool :=
  leaf.kind = .identifier

/-- A name is a type's if it stands where a type is named. -/
def kindOf (parent : NodeKind) : TokenKind → LeafKind
  | .ident => if parent = .datatype ∨ parent = .typeLiteral then .typeName else .identifier
  | .string => .string
  | .integer | .float => .number
  | .keyword _ => .keyword
  | .punctuation p => if p.isOperator then .operator else .punctuation
  | .space | .comment | .stray => .punctuation

def ofToken (text : List Char) (parent : NodeKind) (token : Token) : Leaf :=
  let start := LineIndex.locate text token.offset
  let stop := LineIndex.locate text token.stop
  { kind := kindOf parent token.kind, text := token.text,
    line := some (start.line + 1), column := some (start.column + 1),
    endLine := some (stop.line + 1), endColumn := some (stop.column + 1) }

end Leaf

namespace Tree

mutual
/-- The tree without its trivia, with places instead of offsets. -/
def placed (text : List Char) : Tree Token → Tree Leaf
  | leaf token => leaf (Leaf.ofToken text .error token)
  | node kind children => node kind (placedAll text kind children)

def placedAll (text : List Char) (parent : NodeKind) : List (Tree Token) → List (Tree Leaf)
  | [] => []
  | leaf token :: rest =>
    if token.kind.isTrivia then placedAll text parent rest
    else leaf (Leaf.ofToken text parent token) :: placedAll text parent rest
  | node kind children :: rest =>
    placed text (node kind children) :: placedAll text parent rest
end

/-- The identifiers that hang directly from a node. -/
def identifiers (t : Tree Leaf) : List Leaf :=
  t.ownLeaves.filter Leaf.isIdentifier

/-- A keyword that hangs directly from the node, in any case. -/
def hasKeyword (t : Tree Leaf) (text : String) : Bool :=
  t.ownLeaves.any fun l => l.kind = .keyword && Text.sameLetters l.text text

def hasText (t : Tree Leaf) (text : String) : Bool :=
  t.ownLeaves.any fun l => l.text = text

end Tree
end ConceptQuery
