import ConceptQuery.Dialect.Basic
import ConceptQuery.Plan.Select
import ConceptQuery.Text.Blank

/-! # The DuckDB dialect

One clause a line, lists one item a line, four blanks of indent, and no blank
space at the end of the text.
-/
namespace ConceptQuery.DuckDb

/-- Insists on a number of arguments. -/
def withArity (function expected : String) (arguments : List String) (ok : Bool) (sql : String) :
    Except RenderError String :=
  if ok then .ok sql else .error (.arity function expected arguments.length)

/-- Conditions with their values, and a last value without a condition. -/
def caseBranches : List String → String
  | condition :: value :: rest => " WHEN " ++ condition ++ " THEN " ++ value ++ caseBranches rest
  | [value] => " ELSE " ++ value
  | [] => ""

def plainCall (function : String) (arguments : List String) : String :=
  function ++ "(" ++ ", ".intercalate arguments ++ ")"

/-- Counts of a column are counts of its different values. -/
def countCall (argument : String) : String :=
  if argument = "1" ∨ argument = "*" then "count(" ++ argument ++ ")"
  else "count(DISTINCT " ++ argument ++ ")"

def call (function : String) (arguments : List String) : Except RenderError String :=
  let arity := withArity function
  match function, arguments with
  | "count", [a] => .ok (countCall a)
  | "count", _ => arity "1" arguments false ""
  | "cast", [a, b] => .ok ("CAST(" ++ a ++ " AS " ++ b ++ ")")
  | "cast", _ => arity "2" arguments false ""
  | "date", _ => arity "3" arguments (arguments.length = 3) (plainCall "make_date" arguments)
  | "today", _ => arity "0" arguments arguments.isEmpty "current_date"
  | "now", _ => arity "0" arguments arguments.isEmpty "current_timestamp"
  | "if", [a, b, c] => .ok ("CASE WHEN " ++ a ++ " THEN " ++ b ++ " ELSE " ++ c ++ " END")
  | "if", _ => arity "3" arguments false ""
  | "case", _ =>
    arity "at least 2" arguments (2 ≤ arguments.length) ("CASE" ++ caseBranches arguments ++ " END")
  | "like", [a, b] => .ok (a ++ " LIKE " ++ b)
  | "like", _ => arity "2" arguments false ""
  | "string_agg", _ => arity "2" arguments (arguments.length = 2) (plainCall function arguments)
  | "year", _ | "month", _ | "day", _ =>
    arity "1" arguments (arguments.length = 1) (plainCall function arguments)
  | _, _ => .ok (plainCall function arguments)

def indent : String := "    "

/-- One item a line, with commas between. -/
def listLines : List String → String
  | [] => ""
  | [item] => indent ++ item ++ "\n"
  | item :: rest => indent ++ item ++ ",\n" ++ listLines rest

def clause (keyword : String) (items : List String) : String :=
  if items.isEmpty then "" else keyword ++ "\n" ++ listLines items

def filterClause (keyword : String) (condition : Option String) : String :=
  match condition with
  | some sql => keyword ++ "\n" ++ indent ++ sql ++ "\n"
  | none => ""

def trimEnd (sql : String) : String :=
  String.ofList (sql.toList.reverse.dropWhile Text.isBlank).reverse

def equations (pairs : List (String × String)) : String :=
  " AND ".intercalate (pairs.map fun (left, right) => left ++ " = " ++ right)

def sourceLine (source : PlanSource) : String :=
  let relation := source.relation ++ " AS " ++ quoteName source.asName
  if source.joinOn.isEmpty then indent ++ relation ++ "\n"
  else indent ++ "INNER JOIN " ++ relation ++ " ON " ++ equations source.joinOn ++ "\n"

def fromClause (sources : List PlanSource) : String :=
  if sources.isEmpty then "" else "FROM\n" ++ String.join (sources.map sourceLine)

def limitClause (limit : Option Nat) : String :=
  match limit with
  | some count => "LIMIT " ++ toString count ++ "\n"
  | none => ""

def printPlan (plan : Plan) : String :=
  trimEnd ("SELECT\n" ++
    listLines (plan.columns.map fun c => c.sql ++ " AS " ++ quoteName c.name) ++
    fromClause plan.sources ++ filterClause "WHERE" plan.condition ++
    clause "GROUP BY" plan.groupBy ++ filterClause "HAVING" plan.having ++
    clause "ORDER BY" plan.orderBy ++ limitClause plan.limit)

/-- The alias of a merged part. -/
def partAlias (index : Nat) : String :=
  "q" ++ toString index

/-- The parts of a merge as named queries, from `index` on. -/
def partQueries : Nat → List Plan → String
  | _, [] => ""
  | index, [part] => partAlias index ++ " AS (\n" ++ printPlan part ++ "\n)\n"
  | index, part :: rest =>
    partAlias index ++ " AS (\n" ++ printPlan part ++ "\n),\n" ++ partQueries (index + 1) rest

def alignedColumn (a : AlignColumn) : String :=
  "coalesce(" ++
    ", ".intercalate (a.columns.zipIdx.map fun (c, i) => columnRef (partAlias i) c) ++
    ") AS " ++ quoteName a.name

def isAligned (align : List AlignColumn) (index : Nat) (name : String) : Bool :=
  align.any fun a => a.columns[index]? = some name

/-- The outputs of a part that no align item takes. -/
def ownColumns (align : List AlignColumn) (index : Nat) (part : Plan) : List String :=
  (part.columns.filter fun c => !isAligned align index c.name).map fun c =>
    columnRef (partAlias index) c.name

def mergedColumns (parts : List Plan) (align : List AlignColumn) : List String :=
  align.map alignedColumn ++ (parts.zipIdx.map fun (part, i) => ownColumns align i part).flatten

/-- How a part is joined to the first one. -/
def mergeLine (align : List AlignColumn) (index : Nat) : String :=
  let pairs := align.filterMap fun a =>
    match a.columns[0]?, a.columns[index]? with
    | some left, some right =>
      some (columnRef (partAlias 0) left, columnRef (partAlias index) right)
    | _, _ => none
  let part := quoteName (partAlias index)
  if pairs.isEmpty then indent ++ "CROSS JOIN " ++ part ++ "\n"
  else indent ++ "FULL JOIN " ++ part ++ " ON " ++ equations pairs ++ "\n"

def printMerge (parts : List Plan) (align : List AlignColumn) : String :=
  trimEnd ("WITH\n" ++ partQueries 0 parts ++ "SELECT\n" ++
    listLines (mergedColumns parts align) ++
    "FROM\n" ++ indent ++ quoteName (partAlias 0) ++ "\n" ++
    String.join ((List.range' 1 (parts.length - 1)).map (mergeLine align)))

def print : Form → String
  | .select plan => printPlan plan
  | .persist table plan => "CREATE OR REPLACE TABLE " ++ table ++ " AS\n" ++ printPlan plan
  | .multiSelect parts align => printMerge parts align
  | .rawSql text => text

def dialect : Dialect :=
  { name := "duckdb", generate := Plan.forms call, print := fun form => .ok (print form) }

end ConceptQuery.DuckDb
