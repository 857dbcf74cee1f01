import ConceptQuery.Grammar.Statement

/-! # Documents

A document is read statement by statement. A statement that gets stuck is closed
around an error node that holds the rest of it: everything up to and including
the next semicolon, or up to a statement keyword that starts a line. Reading then
goes on behind it, so every character of the text stands in the tree exactly once.
-/
namespace ConceptQuery

/-- A token that fits nowhere, and the kinds that would have fitted. -/
structure Fault where
  found : String
  expected : List TokenKind
  /-- Where the token starts and stops, in UTF-8 bytes. -/
  start : Nat
  stop : Nat
deriving DecidableEq

structure Parsed where
  tree : Tree Token
  faults : List Fault

namespace Grammar

/-- The mark that a message shows for a document that ended too early. -/
def endOfInput : String := "$END"

def faultAt (textSize : Nat) (expected : List TokenKind) : List Lexeme → Fault
  | [] => ⟨endOfInput, expected, textSize, textSize⟩
  | l :: _ => ⟨l.token.text, expected, l.token.offset, l.token.stop⟩

/-- What an error node takes, and the lexemes left after it. -/
def swallow : List Lexeme → List (Tree Token) × List Lexeme
  | [] => ([], [])
  | l :: rest =>
    if statementStart.contains l.kind && l.startsLine then ([], l :: rest)
    else if l.kind = punct .semicolon then (l.elements, rest)
    else
      let (elements, left) := swallow rest
      (l.elements ++ elements, left)

/-- Three calls and a loop round are the most that happen between two lexemes. -/
def fuelFor (lexemes : List Lexeme) : Nat :=
  4 * lexemes.length + 4

def readStatement (lexemes : List Lexeme) : Reading :=
  statement.read rules (fuelFor lexemes) [] lexemes

/-- Reads statements; each takes a lexeme, so `fuel` is at most their number. -/
def readStatements (textSize : Nat) :
    (fuel : Nat) → List Lexeme → List (Tree Token) × List Fault
  | 0, _ => ([], [])
  | _ + 1, [] => ([], [])
  | fuel + 1, lexemes =>
    match readStatement lexemes with
    | .made elements rest =>
      let (more, faults) := readStatements textSize fuel rest
      (elements ++ more, faults)
    | .stuck unfinished expected rest =>
      let (swallowed, left) := swallow rest
      let (more, faults) := readStatements textSize fuel left
      (unfinished.close (.node .error swallowed) ++ more, faultAt textSize expected rest :: faults)

def readTokens (textSize : Nat) (tokens : List Token) : Parsed :=
  let leading := tokens.takeWhile fun t => t.kind.isTrivia
  let lexemes := Lexeme.group (Lexeme.breaksLine leading) tokens
  let (statements, faults) := readStatements textSize lexemes.length lexemes
  ⟨.node .sourceFile (leading.map .leaf ++ statements), faults⟩

end Grammar

/-- Reads a whole text. The tree is complete whether or not there are faults. -/
def Parsed.ofText (text : String) : Parsed :=
  Grammar.readTokens text.utf8ByteSize (Token.scan text)

/-- The text that a tree of tokens spells. -/
def Tree.spelling (tree : Tree Token) : String :=
  "".intercalate (tree.leaves.map Token.text)

end ConceptQuery
