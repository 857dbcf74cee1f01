import ConceptQuery.Token.Kind
import ConceptQuery.Tree.Basic

/-! # Labels of kinds

The upper-case labels under which a dump of tokens or of a tree shows their kinds.
No two kinds of token share a label, and no two kinds of node.
-/
namespace ConceptQuery

def Punctuation.label : Punctuation → String
  | leftParen => "L_PAREN" | rightParen => "R_PAREN" | semicolon => "SEMICOLON"
  | colon => "COLON" | comma => "COMMA" | leftArrow => "LEFT_ARROW" | arrow => "ARROW"
  | minusMinus => "MINUS_MINUS" | question => "QUESTION" | eq => "EQ" | eqEq => "EQ_EQ"
  | bangEq => "BANG_EQ" | lt => "LT" | gt => "GT" | ltEq => "LT_EQ" | gtEq => "GT_EQ"
  | plus => "PLUS" | minus => "MINUS" | star => "STAR" | slash => "SLASH"
  | percent => "PERCENT"

def Keyword.label (k : Keyword) : String :=
  String.ofList (k.text.toList.map Char.toUpper) ++ "_KW"

def TokenKind.label : TokenKind → String
  | space => "WHITESPACE"
  | comment => "COMMENT"
  | ident => "IDENT"
  | integer => "INTEGER"
  | float => "FLOAT"
  | string => "STRING"
  | punctuation p => p.label
  | keyword k => k.label
  | stray => "ERROR"

def NodeKind.label : NodeKind → String
  | sourceFile => "SOURCE_FILE"
  | conceptDeclaration => "CONCEPT_DECLARATION"
  | propertyDeclaration => "CONCEPT_PROPERTY_DECLARATION"
  | conceptDerivation => "CONCEPT_DERIVATION"
  | datatype => "DATATYPE"
  | datasource => "DATASOURCE"
  | columnList => "COLUMN_LIST"
  | columnAlias => "COLUMN_ALIAS"
  | grainClause => "GRAIN_CLAUSE"
  | addressClause => "ADDRESS_CLAUSE"
  | queryClause => "QUERY_CLAUSE"
  | importStatement => "IMPORT_STATEMENT"
  | selectStatement => "SELECT_STATEMENT"
  | selectItem => "SELECT_ITEM"
  | selectTransform => "SELECT_TRANSFORM"
  | conceptAssignment => "CONCEPT_ASSIGNMENT"
  | whereClause => "WHERE_CLAUSE"
  | orderByClause => "ORDER_BY_CLAUSE"
  | orderItem => "ORDER_ITEM"
  | limitClause => "LIMIT_CLAUSE"
  | multiSelectStatement => "MULTI_SELECT_STATEMENT"
  | alignClause => "ALIGN_CLAUSE"
  | alignItem => "ALIGN_ITEM"
  | persistStatement => "PERSIST_STATEMENT"
  | rawSqlStatement => "RAW_SQL_STATEMENT"
  | conceptLiteral => "CONCEPT_LIT"
  | literal => "LITERAL"
  | typeLiteral => "TYPE_LIT"
  | callExpression => "CALL_EXPR"
  | argumentList => "ARG_LIST"
  | parenExpression => "PAREN_EXPR"
  | binaryExpression => "BINARY_EXPR"
  | unaryExpression => "UNARY_EXPR"
  | isNullExpression => "IS_NULL_EXPR"
  | inExpression => "IN_EXPR"
  | error => "ERROR"

end ConceptQuery
