import ConceptQuery.Token.Lexer
import ConceptQuery.Tree.Basic

/-! # Rules of a grammar, and how they read

A `Rule` is a value: what to take, when to branch and which node to build. One
function, `Rule.read`, runs every rule over a list of lexemes. A lexeme is a token
together with the trivia after it, so trivia ends up in the node that took the
token, and no rule ever sees it: a rule may only look at the kinds and texts of
the next three lexemes.

Reading either makes elements or gets stuck. A stuck reading keeps the nodes that
were open, so that whoever recovers can close them around what could not be read.
-/
namespace ConceptQuery

structure Lexeme where
  token : Token
  /-- The blank space and comments directly after the token. -/
  trivia : List Token
  /-- Whether a newline stands between the token and the one before it. -/
  startsLine : Bool
deriving DecidableEq, Inhabited

namespace Lexeme

def kind (l : Lexeme) : TokenKind := l.token.kind

def elements (l : Lexeme) : List (Tree Token) :=
  (l.token :: l.trivia).map .leaf

def breaksLine (trivia : List Token) : Bool :=
  trivia.any fun t => t.text.toList.contains '\n'

/-- Gives each token that is no trivia the trivia after it. `startsLine` says
whether the first of them starts a line. -/
def group (startsLine : Bool) : List Token → List Lexeme
  | [] => []
  | t :: rest =>
    if t.kind.isTrivia then group startsLine rest
    else
      let trivia := rest.takeWhile fun u => u.kind.isTrivia
      ⟨t, trivia, startsLine⟩ :: group (breaksLine trivia) rest

end Lexeme

/-- What a rule may see of a lexeme before it takes it. -/
structure Word where
  kind : TokenKind
  text : String
deriving DecidableEq, Inhabited

abbrev Look := List Word → Bool

namespace Look

def words (lexemes : List Lexeme) : List Word :=
  (lexemes.take 3).map fun l => ⟨l.token.kind, l.token.text⟩

/-- The next lexeme is of one of these kinds. -/
def sees (kinds : List TokenKind) : Look
  | [] => false
  | w :: _ => kinds.contains w.kind

/-- The lexeme after the next one is of this kind. -/
def thenSees (kind : TokenKind) : Look
  | _ :: w :: _ => w.kind = kind
  | _ => false

def and (a b : Look) : Look := fun ws => a ws && b ws
def or (a b : Look) : Look := fun ws => a ws || b ws
def not (a : Look) : Look := fun ws => !a ws

end Look

/-- The rules that call themselves, directly or through each other. -/
inductive Nonterminal where
  | expression
  | negation
  | signed
deriving DecidableEq

inductive Rule where
  | done
  /-- One lexeme of this kind. -/
  | expect (kind : TokenKind)
  /-- The next lexeme, whatever it is. -/
  | take
  /-- Gets stuck. -/
  | refuse (expected : List TokenKind)
  | seq (first second : Rule)
  | branch (look : Look) (yes no : Rule)
  /-- The body again and again, as long as the look holds. -/
  | loop (look : Look) (body : Rule)
  /-- A node around what the body makes. -/
  | node (kind : NodeKind) (body : Rule)
  /-- The body as it is; a `wrap` in it reaches back to this place. -/
  | mark (body : Rule)
  /-- A node around all that was made since the mark and what the body makes. -/
  | wrap (kind : NodeKind) (body : Rule)
  | call (name : Nonterminal)

namespace Rule

def inOrder (rules : List Rule) : Rule :=
  rules.foldr seq done

def optional (look : Look) (rule : Rule) : Rule :=
  branch look rule done

/-- An item, then more of them behind separators. -/
def separated (separator : TokenKind) (item : Rule) : Rule :=
  seq item (loop (.sees [separator]) (seq take item))

end Rule

/-- The open nodes of a reading that got stuck, outermost first, each with the
elements it has so far. -/
inductive Unfinished where
  | here (made : List (Tree Token))
  | inside (made : List (Tree Token)) (kind : NodeKind) (inner : Unfinished)

namespace Unfinished

/-- Puts elements in front of all others. -/
def after (before : List (Tree Token)) : Unfinished → Unfinished
  | here made => here (before ++ made)
  | inside made kind inner => inside (before ++ made) kind inner

/-- Closes all open nodes; `last` becomes the last element of the innermost. -/
def close (last : Tree Token) : Unfinished → List (Tree Token)
  | here made => made ++ [last]
  | inside made kind inner => made ++ [.node kind (inner.close last)]

end Unfinished

inductive Reading where
  | made (elements : List (Tree Token)) (rest : List Lexeme)
  | stuck (unfinished : Unfinished) (expected : List TokenKind) (rest : List Lexeme)

namespace Rule

/-- Reads one rule, given how to read a rule once more. `made` holds what was
made since the last mark or the start of the innermost node. -/
def step (rules : Nonterminal → Rule) (again : Rule → List (Tree Token) → List Lexeme → Reading) :
    Rule → List (Tree Token) → List Lexeme → Reading
  | done, made, input => .made made input
  | expect k, made, l :: rest =>
    if l.kind = k then .made (made ++ l.elements) rest else .stuck (.here made) [k] (l :: rest)
  | expect k, made, [] => .stuck (.here made) [k] []
  | take, made, l :: rest => .made (made ++ l.elements) rest
  | take, made, [] => .made made []
  | refuse expected, made, input => .stuck (.here made) expected input
  | seq first second, made, input =>
    match step rules again first made input with
    | .made made rest => step rules again second made rest
    | .stuck unfinished expected rest => .stuck unfinished expected rest
  | branch look yes no, made, input =>
    if look (Look.words input) then step rules again yes made input
    else step rules again no made input
  | loop look body, made, input =>
    if look (Look.words input) then
      match step rules again body made input with
      | .made made rest => again (loop look body) made rest
      | .stuck unfinished expected rest => .stuck unfinished expected rest
    else .made made input
  | node kind body, made, input =>
    match step rules again body [] input with
    | .made inner rest => .made (made ++ [.node kind inner]) rest
    | .stuck unfinished expected rest => .stuck (.inside made kind unfinished) expected rest
  | mark body, made, input =>
    match step rules again body [] input with
    | .made inner rest => .made (made ++ inner) rest
    | .stuck unfinished expected rest => .stuck (unfinished.after made) expected rest
  | wrap kind body, made, input =>
    match step rules again body made input with
    | .made inner rest => .made [.node kind inner] rest
    | .stuck unfinished expected rest => .stuck (.inside [] kind unfinished) expected rest
  | call name, made, input => again (rules name) made input

/-- Reads a rule with at most `fuel` nested calls and loop rounds. -/
def read (rules : Nonterminal → Rule) :
    (fuel : Nat) → Rule → List (Tree Token) → List Lexeme → Reading
  | 0, _, made, input => .stuck (.here made) [] input
  | fuel + 1, rule, made, input => step rules (read rules fuel) rule made input

end Rule
end ConceptQuery
