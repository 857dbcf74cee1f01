/-! # Trees of a document

A tree has named nodes and leaves of any type. The grammar builds trees whose
leaves are tokens; the compiler and the editor read trees whose leaves are words
with positions. Both share the node kinds and the walks below.
-/
namespace ConceptQuery

inductive NodeKind where
  | sourceFile
  | conceptDeclaration | propertyDeclaration | conceptDerivation | datatype
  | datasource | columnList | columnAlias | grainClause | addressClause | queryClause
  | importStatement
  | selectStatement | selectItem | selectTransform | conceptAssignment
  | whereClause | orderByClause | orderItem | limitClause
  | multiSelectStatement | alignClause | alignItem
  | persistStatement | rawSqlStatement
  | conceptLiteral | literal | typeLiteral | callExpression | argumentList
  | parenExpression | binaryExpression | unaryExpression | isNullExpression | inExpression
  | error
deriving DecidableEq, Inhabited

namespace NodeKind

/-- The name of the rule, as messages and tools print it. -/
def ruleName : NodeKind → String
  | sourceFile => "start"
  | conceptDeclaration => "concept_declaration"
  | propertyDeclaration => "concept_property_declaration"
  | conceptDerivation => "concept_derivation"
  | datatype => "data_type"
  | datasource => "datasource"
  | columnList => "column_list"
  | columnAlias => "raw_column"
  | grainClause => "grain_clause"
  | addressClause => "address"
  | queryClause => "query"
  | importStatement => "import_statement"
  | selectStatement => "select_statement"
  | selectItem => "select_item"
  | selectTransform => "select_transform"
  | conceptAssignment => "concept_assignment"
  | whereClause => "where"
  | orderByClause => "order_by"
  | orderItem => "ordering"
  | limitClause => "limit"
  | multiSelectStatement => "multi_select_statement"
  | alignClause => "align_clause"
  | alignItem => "align_item"
  | persistStatement => "persist"
  | rawSqlStatement => "raw_sql"
  | conceptLiteral => "concept_lit"
  | literal => "literal"
  | typeLiteral => "type_lit"
  | callExpression => "function_call"
  | argumentList => "args"
  | parenExpression => "parenthetical"
  | binaryExpression => "binary_expr"
  | unaryExpression => "unary_expr"
  | isNullExpression => "is_null"
  | inExpression => "in_list"
  | error => "error"

def all : List NodeKind :=
  [sourceFile, conceptDeclaration, propertyDeclaration, conceptDerivation, datatype, datasource,
   columnList, columnAlias, grainClause, addressClause, queryClause, importStatement,
   selectStatement, selectItem, selectTransform, conceptAssignment, whereClause, orderByClause,
   orderItem, limitClause, multiSelectStatement, alignClause, alignItem, persistStatement,
   rawSqlStatement, conceptLiteral, literal, typeLiteral, callExpression, argumentList,
   parenExpression, binaryExpression, unaryExpression, isNullExpression, inExpression, error]

def ofRuleName? (name : String) : Option NodeKind :=
  all.find? fun k => k.ruleName = name

/-- Nodes whose name is the concept that they declare. -/
def isDefinition : NodeKind → Bool
  | conceptDeclaration | propertyDeclaration | conceptDerivation => true
  | _ => false

/-- Nodes whose name refers to a concept that is declared elsewhere. -/
def isReference : NodeKind → Bool
  | conceptLiteral | conceptAssignment => true
  | _ => false

/-- Nodes whose names stand for concepts at all. -/
def namesConcepts (k : NodeKind) : Bool :=
  k.isDefinition || k.isReference || k = grainClause || k = columnList

end NodeKind

inductive Tree (α : Type) where
  | leaf (value : α)
  | node (kind : NodeKind) (children : List (Tree α))
deriving Inhabited

namespace Tree
variable {α : Type}

/-- A leaf belongs to no rule. -/
def kind : Tree α → NodeKind
  | leaf _ => .error
  | node k _ => k

def children : Tree α → List (Tree α)
  | leaf _ => []
  | node _ cs => cs

def leaf? : Tree α → Option α
  | leaf a => some a
  | node _ _ => none

def isNode : Tree α → Bool
  | leaf _ => false
  | node _ _ => true

mutual
/-- All leaves, from left to right. -/
def leaves : Tree α → List α
  | leaf a => [a]
  | node _ cs => leavesOf cs

def leavesOf : List (Tree α) → List α
  | [] => []
  | t :: ts => leaves t ++ leavesOf ts
end

/-- The child nodes of a node. -/
def nodes (t : Tree α) : List (Tree α) :=
  t.children.filter isNode

/-- The leaves that hang directly from a node. -/
def ownLeaves (t : Tree α) : List α :=
  t.children.filterMap leaf?

/-- The first child node of a kind. -/
def child? (t : Tree α) (k : NodeKind) : Option (Tree α) :=
  t.nodes.find? fun n => n.kind = k

def first? (t : Tree α) : Option α :=
  t.leaves.head?

def last? (t : Tree α) : Option α :=
  t.leaves.getLast?

end Tree
end ConceptQuery
