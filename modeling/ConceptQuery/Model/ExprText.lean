import ConceptQuery.Model.Expr

/-! # The text of an expression

Expressions are printed close to how they are written. No parentheses are added:
an expression that came from a text has its own.
-/
namespace ConceptQuery

/-- Writes every quote of a text twice. -/
def doubled (quote : Char) : List Char → List Char
  | [] => []
  | c :: rest => if c = quote then c :: c :: doubled quote rest else c :: doubled quote rest

def quoted (quote : Char) (text : String) : String :=
  String.ofList (quote :: doubled quote text.toList ++ [quote])

def Literal.text : Literal → String
  | .number text => text
  | .string text => quoted '\'' text
  | .bool true => "true"
  | .bool false => "false"
  | .null => "null"

namespace Expr

mutual
def text : Expr → String
  | concept address => address
  | literal value => value.text
  | type datatype => datatype.name
  | call function arguments => function ++ "(" ++ ", ".intercalate (texts arguments) ++ ")"
  | binary op lhs rhs => text lhs ++ " " ++ Text.lowered op.sql ++ " " ++ text rhs
  | unary .not operand => "not " ++ text operand
  | unary .neg operand => "-" ++ text operand
  | isNull operand negated => text operand ++ (if negated then " is not null" else " is null")
  | inList operand items negated =>
    text operand ++ (if negated then " not in (" else " in (") ++
      ", ".intercalate (texts items) ++ ")"
  | paren inner => "(" ++ text inner ++ ")"

def texts : List Expr → List String
  | [] => []
  | e :: es => text e :: texts es
end

end Expr
end ConceptQuery
