import ConceptQuery.Grammar.Rule
import ConceptQuery.Text.Ascii

/-! # Expressions

From loose to tight: `or`, `and`, `not`, one comparison, sums, products, unary
minus, atoms. Binary operators of one level nest to the left; a comparison does
not chain.
-/
namespace ConceptQuery.Grammar
open Rule

abbrev punct (p : Punctuation) : TokenKind := .punctuation p
abbrev word (k : Keyword) : TokenKind := .keyword k

/-- Names that stand for a type rather than a concept inside an expression. -/
def typeNames : List String :=
  ["int", "integer", "bigint", "string", "float", "numeric", "bool", "boolean", "date",
   "datetime", "timestamp"]

def expressionStart : List TokenKind :=
  [.ident, .integer, .float, .string, word .trueWord, word .falseWord, word .null,
   punct .leftParen, punct .minus, word .not]

def literalStart : List TokenKind :=
  [.integer, .float, .string, word .trueWord, word .falseWord, word .null]

def comparisonOperators : List TokenKind :=
  [punct .eq, punct .eqEq, punct .bangEq, punct .lt, punct .gt, punct .ltEq, punct .gtEq,
   word .like]

def atTypeName : Look
  | [] => false
  | w :: _ => w.kind = .ident && typeNames.contains (Text.lowered w.text)

/-- Operands of one level with operators between them, nested to the left. -/
def leftNested (operators : List TokenKind) (operand : Rule) : Rule :=
  mark (seq operand (loop (.sees operators) (wrap .binaryExpression (seq take operand))))

def oneToken (kind : NodeKind) (token : TokenKind) : Rule :=
  node kind (expect token)

/-- One or more expressions in parentheses, without the node around them. -/
def expressionList : Rule :=
  separated (punct .comma) (call .expression)

def callExpression : Rule :=
  node .callExpression (seq take (node .argumentList (inOrder
    [expect (punct .leftParen),
     branch (.sees [punct .rightParen]) done expressionList,
     expect (punct .rightParen)])))

def atom : Rule :=
  branch (.sees literalStart) (node .literal take)
    (branch (.sees [punct .leftParen])
      (node .parenExpression (inOrder [take, call .expression, expect (punct .rightParen)]))
      (branch (.and (.sees [.ident, word .like]) (.thenSees (punct .leftParen))) callExpression
        (branch (.sees [.ident])
          (branch atTypeName (oneToken .typeLiteral .ident) (oneToken .conceptLiteral .ident))
          (refuse expressionStart))))

def signed : Rule :=
  branch (.sees [punct .minus]) (node .unaryExpression (seq take (call .signed))) atom

def product : Rule :=
  leftNested [punct .star, punct .slash, punct .percent] (call .signed)

def sum : Rule :=
  leftNested [punct .plus, punct .minus] product

def isNullTest : Rule :=
  wrap .isNullExpression
    (inOrder [take, optional (.sees [word .not]) take, expect (word .null)])

def membershipTest : Rule :=
  wrap .inExpression
    (inOrder [optional (.sees [word .not]) take, take, expect (punct .leftParen), expressionList,
      expect (punct .rightParen)])

def atMembership : Look :=
  .or (.sees [word .inWord]) (.and (.sees [word .not]) (.thenSees (word .inWord)))

def comparison : Rule :=
  mark (seq sum
    (branch (.sees comparisonOperators) (wrap .binaryExpression (seq take sum))
      (branch (.sees [word .is]) isNullTest
        (optional atMembership membershipTest))))

def negation : Rule :=
  branch (.sees [word .not]) (node .unaryExpression (seq take (call .negation))) comparison

def conjunction : Rule :=
  leftNested [word .and] (call .negation)

def disjunction : Rule :=
  leftNested [word .or] conjunction

def rules : Nonterminal → Rule
  | .expression => disjunction
  | .negation => negation
  | .signed => signed

def expression : Rule := call .expression

end ConceptQuery.Grammar
