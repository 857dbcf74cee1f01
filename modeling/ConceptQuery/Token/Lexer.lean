import ConceptQuery.Token.Kind

/-! # Cutting a text into tokens

`Token.scan` cuts off one token at a time, always the longest that fits, and
loses no character: the texts of the tokens, put together, are the input. Names
are ASCII; a dot belongs to a name only if another name starts right after it.
-/
namespace ConceptQuery

structure Token where
  kind : TokenKind
  text : String
  /-- Where the token starts, in UTF-8 bytes. -/
  offset : Nat
deriving DecidableEq, Inhabited

def Token.stop (t : Token) : Nat :=
  t.offset + t.text.utf8ByteSize

namespace Lexer

def isSpace (c : Char) : Bool :=
  c = ' ' || c = '\t' || c = '\r' || c = '\n'

def isDigit (c : Char) : Bool :=
  '0' ≤ c && c ≤ '9'

def startsName (c : Char) : Bool :=
  ('a' ≤ c && c ≤ 'z') || ('A' ≤ c && c ≤ 'Z') || c = '_'

def continuesName (c : Char) : Bool :=
  startsName c || isDigit c

/-- A piece cut off the front of a text, and what follows it. -/
abbrev Cut := List Char × List Char

/-- The rest of a dotted name once its first character is taken. -/
def nameTail : List Char → Cut
  | [] => ([], [])
  | '.' :: c :: rest =>
    if startsName c then let (piece, after) := nameTail rest; ('.' :: c :: piece, after)
    else ([], '.' :: c :: rest)
  | c :: rest =>
    if continuesName c then let (piece, after) := nameTail rest; (c :: piece, after)
    else ([], c :: rest)

/-- The complete characters of a string body: anything but the quote and the
backslash, or a backslash with the character it escapes, which is no newline. -/
def stringBody (quote : Char) : List Char → Cut
  | [] => ([], [])
  | '\\' :: c :: rest =>
    if c = '\n' then ([], '\\' :: c :: rest)
    else let (piece, after) := stringBody quote rest; ('\\' :: c :: piece, after)
  | c :: rest =>
    if c = quote || c = '\\' then ([], c :: rest)
    else let (piece, after) := stringBody quote rest; (c :: piece, after)

/-- A keyword with a dot behind it that starts no further segment is read as a
plain name. -/
def nameKind (name after : List Char) : TokenKind :=
  match Keyword.ofText? (String.ofList name), after with
  | some _, '.' :: _ => .ident
  | some k, _ => .keyword k
  | none, _ => .ident

def number (digits after : List Char) : TokenKind × Cut :=
  match after with
  | '.' :: d :: rest =>
    if isDigit d then
      (.float, digits ++ '.' :: d :: rest.takeWhile isDigit, rest.dropWhile isDigit)
    else (.integer, digits, after)
  | _ => (.integer, digits, after)

/-- A string that is not closed is a stray token up to where its body ends. -/
def string (quote : Char) (after : List Char) : TokenKind × Cut :=
  match stringBody quote after with
  | (body, c :: rest) =>
    if c = quote then (.string, quote :: body ++ [quote], rest) else (.stray, quote :: body, c :: rest)
  | (body, []) => (.stray, quote :: body, [])

def lineComment (front after : List Char) : TokenKind × Cut :=
  (.comment, front ++ after.takeWhile (· ≠ '\n'), after.dropWhile (· ≠ '\n'))

def pair? (c d : Char) : Option Punctuation :=
  match c, d with
  | '<', '-' => some .leftArrow
  | '-', '>' => some .arrow
  | '-', '-' => some .minusMinus
  | '=', '=' => some .eqEq
  | '!', '=' => some .bangEq
  | '<', '=' => some .ltEq
  | '>', '=' => some .gtEq
  | _, _ => none

def single? (c : Char) : Option Punctuation :=
  match c with
  | '(' => some .leftParen
  | ')' => some .rightParen
  | ';' => some .semicolon
  | ':' => some .colon
  | ',' => some .comma
  | '?' => some .question
  | '=' => some .eq
  | '<' => some .lt
  | '>' => some .gt
  | '+' => some .plus
  | '-' => some .minus
  | '*' => some .star
  | '/' => some .slash
  | '%' => some .percent
  | _ => none

def symbol (c : Char) (after : List Char) : TokenKind × Cut :=
  let alone : TokenKind × Cut :=
    ((single? c).elim .stray .punctuation, [c], after)
  match after with
  | [] => alone
  | d :: rest =>
    match pair? c d with
    | some p => (.punctuation p, [c, d], rest)
    | none => alone

/-- The token at the front of a text that starts with `c`. -/
def next (c : Char) (after : List Char) : TokenKind × Cut :=
  if isSpace c then (.space, c :: after.takeWhile isSpace, after.dropWhile isSpace)
  else if startsName c then
    let (piece, rest) := nameTail after
    (nameKind (c :: piece) rest, c :: piece, rest)
  else if isDigit c then number (c :: after.takeWhile isDigit) (after.dropWhile isDigit)
  else if c = '"' || c = '\'' then string c after
  else if c = '#' then lineComment ['#'] after
  else match c, after with
    | '/', '/' :: rest => lineComment ['/', '/'] rest
    | _, _ => symbol c after

/-- Cuts at most `fuel` tokens; every token takes a character, so the length of
the text is enough. -/
def scan : (fuel : Nat) → List Char → (offset : Nat) → List Token
  | 0, _, _ => []
  | _ + 1, [], _ => []
  | fuel + 1, c :: after, offset =>
    let (kind, piece, rest) := next c after
    let token : Token := ⟨kind, String.ofList piece, offset⟩
    token :: scan fuel rest token.stop

end Lexer

/-- All tokens of a text, blank space and comments included. -/
def Token.scan (text : String) : List Token :=
  Lexer.scan text.toList.length text.toList 0

end ConceptQuery
