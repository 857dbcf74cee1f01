import ConceptQuery.Catalog
import ConceptQuery.Model.DataType

/-! # Lineage expressions

How a derived concept is computed from others. Concepts are named by canonical
address, so an expression means the same wherever it stands; renaming all of them
at once is `Expr.mapConcepts`.
-/
namespace ConceptQuery

namespace Function

/-- The functions that an expression may call. -/
def known : List String :=
  ["count", "sum", "avg", "min", "max", "coalesce", "concat", "length", "upper", "lower",
   "trim", "substring", "abs", "round", "floor", "ceil", "date", "year", "month", "day",
   "now", "today", "cast", "case", "if", "nullif", "like", "unnest", "array_agg", "string_agg"]

def aggregates : List String :=
  ["count", "sum", "avg", "min", "max", "array_agg", "string_agg"]

def isKnown (name : String) : Bool :=
  known.contains (Text.lowered name)

def isAggregate (name : String) : Bool :=
  aggregates.contains (Text.lowered name)

end Function

inductive Literal where
  /-- A number keeps its digits as written. -/
  | number (text : String)
  | string (text : String)
  | bool (value : Bool)
  | null
deriving DecidableEq, Inhabited

inductive BinaryOp where
  | or | and | eq | notEq | lt | gt | ltEq | gtEq | like | add | sub | mul | div | mod
deriving DecidableEq, Inhabited

namespace BinaryOp

def ofToken? (token : String) : Option BinaryOp :=
  match Text.lowered token with
  | "or" => some .or
  | "and" => some .and
  | "=" | "==" => some .eq
  | "!=" => some .notEq
  | "<" => some .lt
  | ">" => some .gt
  | "<=" => some .ltEq
  | ">=" => some .gtEq
  | "like" => some .like
  | "+" => some .add
  | "-" => some .sub
  | "*" => some .mul
  | "/" => some .div
  | "%" => some .mod
  | _ => none

def sql : BinaryOp → String
  | or => "OR" | and => "AND" | eq => "=" | notEq => "!=" | lt => "<" | gt => ">"
  | ltEq => "<=" | gtEq => ">=" | like => "LIKE" | add => "+" | sub => "-" | mul => "*"
  | div => "/" | mod => "%"

/-- Operators whose result is a truth value. -/
def isBoolean : BinaryOp → Bool
  | add | sub | mul | div | mod => false
  | _ => true

end BinaryOp

inductive UnaryOp where
  | not | neg
deriving DecidableEq, Inhabited

inductive Expr where
  | concept (address : String)
  | literal (value : Literal)
  | type (datatype : DataType)
  | call (function : String) (arguments : List Expr)
  | binary (op : BinaryOp) (lhs rhs : Expr)
  | unary (op : UnaryOp) (operand : Expr)
  | isNull (operand : Expr) (negated : Bool)
  | inList (operand : Expr) (items : List Expr) (negated : Bool)
  | paren (inner : Expr)
deriving Inhabited

namespace Expr

mutual
/-- Equality, form by form. -/
def same : Expr → Expr → Bool
  | concept a, concept b => a = b
  | literal a, literal b => a = b
  | type a, type b => a = b
  | call f xs, call g ys => f = g && sameAll xs ys
  | binary o a b, binary p c d => o = p && same a c && same b d
  | unary o a, unary p b => o = p && same a b
  | isNull a m, isNull b n => same a b && m = n
  | inList a xs m, inList b ys n => same a b && sameAll xs ys && m = n
  | paren a, paren b => same a b
  | _, _ => false

def sameAll : List Expr → List Expr → Bool
  | [], [] => true
  | x :: xs, y :: ys => same x y && sameAll xs ys
  | _, _ => false
end

mutual
/-- Every concept that occurs, from left to right. -/
def mentions : Expr → List String
  | concept address => [address]
  | literal _ | type _ => []
  | call _ arguments => mentionsAll arguments
  | binary _ lhs rhs => mentions lhs ++ mentions rhs
  | unary _ operand | isNull operand _ | paren operand => mentions operand
  | inList operand items _ => mentions operand ++ mentionsAll items

def mentionsAll : List Expr → List String
  | [] => []
  | e :: es => mentions e ++ mentionsAll es
end

/-- The concepts that occur, each at its first place. -/
def concepts (e : Expr) : List String :=
  firstPlaces e.mentions

mutual
/-- Whether an aggregate function is called anywhere. -/
def hasAggregate : Expr → Bool
  | concept _ | literal _ | type _ => false
  | call function arguments => Function.isAggregate function || anyAggregate arguments
  | binary _ lhs rhs => hasAggregate lhs || hasAggregate rhs
  | unary _ operand | isNull operand _ | paren operand => hasAggregate operand
  | inList operand items _ => hasAggregate operand || anyAggregate items

def anyAggregate : List Expr → Bool
  | [] => false
  | e :: es => hasAggregate e || anyAggregate es
end

mutual
/-- The same expression over renamed concepts. -/
def mapConcepts (rename : String → String) : Expr → Expr
  | concept address => concept (rename address)
  | literal value => literal value
  | type datatype => type datatype
  | call function arguments => call function (mapConceptsAll rename arguments)
  | binary op lhs rhs => binary op (mapConcepts rename lhs) (mapConcepts rename rhs)
  | unary op operand => unary op (mapConcepts rename operand)
  | isNull operand negated => isNull (mapConcepts rename operand) negated
  | inList operand items negated =>
    inList (mapConcepts rename operand) (mapConceptsAll rename items) negated
  | paren inner => paren (mapConcepts rename inner)

def mapConceptsAll (rename : String → String) : List Expr → List Expr
  | [] => []
  | e :: es => mapConcepts rename e :: mapConceptsAll rename es
end

def literalType : Literal → DataType
  | .number text => if text.toList.contains '.' then .float else .integer
  | .string _ => .string
  | .bool _ => .bool
  | .null => .unknown

/-- The type of a call, from its function, its second argument where the function
casts, and the type of its first argument otherwise. -/
def callType (function : String) (arguments : List Expr) (first : DataType) : DataType :=
  match Text.lowered function with
  | "count" | "length" | "year" | "month" | "day" => .integer
  | "avg" => .float
  | "concat" | "upper" | "lower" | "trim" | "substring" | "string_agg" => .string
  | "date" | "today" => .date
  | "now" => .timestamp
  | "like" => .bool
  | "cast" =>
    match arguments with
    | _ :: type datatype :: _ => datatype
    | _ => .unknown
  | _ => first

def arithmeticType (op : BinaryOp) (lhs rhs : DataType) : DataType :=
  if op = .div ∨ lhs = .float ∨ rhs = .float then .float else lhs

mutual
/-- The type of the result, as far as the types of the concepts tell. -/
def inferType (typeOf : String → Option DataType) : Expr → DataType
  | concept address => (typeOf address).getD .unknown
  | literal value => literalType value
  | type _ => .unknown
  | call function arguments => callType function arguments (inferFirst typeOf arguments)
  | binary op lhs rhs =>
    if op.isBoolean then .bool
    else arithmeticType op (inferType typeOf lhs) (inferType typeOf rhs)
  | unary .not _ => .bool
  | unary .neg operand => inferType typeOf operand
  | isNull _ _ => .bool
  | inList _ _ _ => .bool
  | paren inner => inferType typeOf inner

def inferFirst (typeOf : String → Option DataType) : List Expr → DataType
  | [] => .unknown
  | e :: _ => inferType typeOf e
end

end Expr
end ConceptQuery
