/-! # Kinds of token

Every piece of a document is one token. Blank space and comments are tokens too;
`stray` is a character, or an unfinished string, that fits no other kind.
-/
namespace ConceptQuery

inductive Keyword where
  | key | property | metric | auto | const
  | datasource | root | grain | address | query
  | importWord | asWord
  | select | whereWord | order | byWord | asc | desc | limit
  | and | or | not | inWord | is | like
  | null | trueWord | falseWord
  | merge | align | persist | into | fromWord | rawSql
deriving DecidableEq, Inhabited

inductive Punctuation where
  | leftParen | rightParen | semicolon | colon | comma
  | leftArrow | arrow | minusMinus | question
  | eq | eqEq | bangEq | lt | gt | ltEq | gtEq
  | plus | minus | star | slash | percent
deriving DecidableEq, Inhabited

inductive TokenKind where
  | space
  | comment
  | ident
  | integer
  | float
  | string
  | punctuation (p : Punctuation)
  | keyword (k : Keyword)
  | stray
deriving DecidableEq, Inhabited

namespace Keyword

def text : Keyword → String
  | key => "key" | property => "property" | metric => "metric" | auto => "auto"
  | const => "const" | datasource => "datasource" | root => "root" | grain => "grain"
  | address => "address" | query => "query" | importWord => "import" | asWord => "as"
  | select => "select" | whereWord => "where" | order => "order" | byWord => "by"
  | asc => "asc" | desc => "desc" | limit => "limit" | and => "and" | or => "or"
  | not => "not" | inWord => "in" | is => "is" | like => "like" | null => "null"
  | trueWord => "true" | falseWord => "false" | merge => "merge" | align => "align"
  | persist => "persist" | into => "into" | fromWord => "from" | rawSql => "raw_sql"

def all : List Keyword :=
  [key, property, metric, auto, const, datasource, root, grain, address, query,
   importWord, asWord, select, whereWord, order, byWord, asc, desc, limit, and, or, not,
   inWord, is, like, null, trueWord, falseWord, merge, align, persist, into, fromWord, rawSql]

/-- Keywords are written in lower case only. -/
def ofText? (s : String) : Option Keyword :=
  all.find? fun k => k.text = s

/-- The keywords that say what role a declared concept plays. -/
def isPurpose : Keyword → Bool
  | key | property | metric | auto | const => true
  | _ => false

end Keyword

namespace Punctuation

def text : Punctuation → String
  | leftParen => "(" | rightParen => ")" | semicolon => ";" | colon => ":" | comma => ","
  | leftArrow => "<-" | arrow => "->" | minusMinus => "--" | question => "?"
  | eq => "=" | eqEq => "==" | bangEq => "!=" | lt => "<" | gt => ">" | ltEq => "<="
  | gtEq => ">=" | plus => "+" | minus => "-" | star => "*" | slash => "/" | percent => "%"

def isOperator : Punctuation → Bool
  | leftParen | rightParen | semicolon | colon | comma => false
  | _ => true

end Punctuation

namespace TokenKind

/-- Blank space and comments, which no rule of the grammar looks at. -/
def isTrivia : TokenKind → Bool
  | space | comment => true
  | _ => false

def isKeyword : TokenKind → Bool
  | keyword _ => true
  | _ => false

def isPunctuation : TokenKind → Bool
  | punctuation _ => true
  | _ => false

def isOperator : TokenKind → Bool
  | punctuation p => p.isOperator
  | _ => false

def isLiteral : TokenKind → Bool
  | ident | integer | float | string => true
  | _ => false

def isPurpose : TokenKind → Bool
  | keyword k => k.isPurpose
  | _ => false

/-- How a message names the kind among the tokens it expected. -/
def displayName : TokenKind → String
  | ident => "IDENTIFIER"
  | integer => "INTEGER"
  | float => "FLOAT"
  | string => "STRING"
  | punctuation .leftParen => "LPAR"
  | punctuation .rightParen => "RPAR"
  | punctuation .semicolon => "SEMICOLON"
  | punctuation .colon => "COLON"
  | punctuation .comma => "COMMA"
  | punctuation p => "\"" ++ p.text ++ "\""
  | keyword k => "\"" ++ k.text ++ "\""
  | space | comment | stray => "TOKEN"

end TokenKind
end ConceptQuery
