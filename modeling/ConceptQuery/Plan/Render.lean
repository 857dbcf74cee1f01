import ConceptQuery.Plan.Basic

/-! # Columns and conditions as text

A concept that a chosen datasource binds is its column. Any other is its lineage,
with parentheses if that is a binary operation.
-/
namespace ConceptQuery.Plan

/-- How a dialect writes a call, given its arguments as text. -/
abbrev CallWriter := String → List String → Except RenderError String

def literalSql : Literal → String
  | .bool true => "TRUE"
  | .bool false => "FALSE"
  | .null => "NULL"
  | other => other.text

mutual
def exprSql (call : CallWriter) (concept : String → Except RenderError String) :
    Expr → Except RenderError String
  | .concept address => concept address
  | .literal value => .ok (literalSql value)
  | .type datatype => .ok datatype.sqlName
  | .call function arguments => do
    let arguments ← exprSqls call concept arguments
    call function arguments
  | .binary op lhs rhs => do
    let lhs ← exprSql call concept lhs
    let rhs ← exprSql call concept rhs
    return lhs ++ " " ++ op.sql ++ " " ++ rhs
  | .unary .not operand => do
    let operand ← exprSql call concept operand
    return "NOT " ++ operand
  | .unary .neg operand => do
    let operand ← exprSql call concept operand
    return "-" ++ operand
  | .isNull operand negated => do
    let operand ← exprSql call concept operand
    return operand ++ if negated then " IS NOT NULL" else " IS NULL"
  | .inList operand items negated => do
    let items ← exprSqls call concept items
    let operand ← exprSql call concept operand
    return operand ++ (if negated then " NOT IN (" else " IN (") ++ ", ".intercalate items ++ ")"
  | .paren inner => do
    let inner ← exprSql call concept inner
    return "(" ++ inner ++ ")"

def exprSqls (call : CallWriter) (concept : String → Except RenderError String) :
    List Expr → Except RenderError (List String)
  | [] => .ok []
  | e :: es => do
    let first ← exprSql call concept e
    let more ← exprSqls call concept es
    return first :: more
end

/-- What the text of a plan depends on. -/
structure Scope where
  env : Environment
  call : CallWriter
  /-- The columns of the concepts that are read. -/
  bindings : Catalog String

namespace Scope

/-- The text of a concept; `depth` bounds the chain of lineages. -/
def conceptSqlWithin (scope : Scope) : (depth : Nat) → String → Except RenderError String
  | 0, address => .error (.noDatasource address)
  | depth + 1, address =>
    match scope.bindings.get? address with
    | some sql => .ok sql
    | none =>
      match scope.env.concept? address with
      | none => .error (.unknownConcept address)
      | some c =>
        match c.lineage with
        | some (.binary op lhs rhs) => do
          let sql ← exprSql scope.call (conceptSqlWithin scope depth) (.binary op lhs rhs)
          return "(" ++ sql ++ ")"
        | some lineage => exprSql scope.call (conceptSqlWithin scope depth) lineage
        | none => .error (.noDatasource address)

/-- Whether computing a concept aggregates rows. -/
def isAggregateWithin (scope : Scope) : (depth : Nat) → String → Bool
  | 0, _ => false
  | depth + 1, address =>
    if scope.bindings.contains address then false
    else match scope.env.concept? address with
      | none => false
      | some c =>
        c.derivation = .aggregate ||
          c.lineage.any fun lineage =>
            lineage.hasAggregate || lineage.concepts.any (isAggregateWithin scope depth)

/-- No chain of lineages without a cycle is longer than this. -/
def depth (scope : Scope) : Nat :=
  scope.env.concepts.size + 1

def conceptSql (scope : Scope) (address : String) : Except RenderError String :=
  scope.conceptSqlWithin scope.depth address

def exprSql (scope : Scope) (e : Expr) : Except RenderError String :=
  Plan.exprSql scope.call scope.conceptSql e

def isAggregate (scope : Scope) (address : String) : Bool :=
  scope.isAggregateWithin scope.depth address

def exprIsAggregate (scope : Scope) (e : Expr) : Bool :=
  e.hasAggregate || e.concepts.any scope.isAggregate

end Scope
end ConceptQuery.Plan
