import ConceptQuery.Model.Statement

/-! # Query plans

A plan says which relations a select reads, how they are joined, and the text of
every column, filter and ordering. A form is a planned statement, ready to print.
-/
namespace ConceptQuery

inductive RenderError where
  | noDatasource (concept : String)
  /-- A datasource that is needed shares no concept with those chosen so far. -/
  | noJoinPath (datasource : String)
  | unknownConcept (concept : String)
  | unsupported (kind : String)
  | arity (function expected : String) (found : Nat)
deriving DecidableEq, Inhabited

def RenderError.message : RenderError → String
  | noDatasource concept => "No datasource provides '" ++ concept ++ "'"
  | noJoinPath datasource => "No join path to datasource '" ++ datasource ++ "'"
  | unknownConcept concept => "Concept '" ++ concept ++ "' is not defined"
  | unsupported kind => "Cannot render " ++ kind ++ " statements"
  | arity function expected found =>
    "Function '" ++ function ++ "' expects " ++ expected ++ " arguments, got " ++ toString found

/-- A relation that a select reads. -/
structure PlanSource where
  relation : String
  asName : String
  /-- The columns that a join equates; none for the first source. -/
  joinOn : List (String × String)
deriving DecidableEq, Inhabited

structure OutputColumn where
  sql : String
  name : String
  aggregate : Bool
deriving DecidableEq, Inhabited

structure Plan where
  columns : List OutputColumn := []
  sources : List PlanSource := []
  condition : Option String := none
  groupBy : List String := []
  having : Option String := none
  orderBy : List String := []
  limit : Option Nat := none
deriving DecidableEq, Inhabited

/-- A column of merged selects, with its name in each of them. -/
structure AlignColumn where
  name : String
  columns : List String
deriving DecidableEq, Inhabited

inductive Form where
  | select (plan : Plan)
  | multiSelect (parts : List Plan) (align : List AlignColumn)
  | persist (table : String) (plan : Plan)
  | rawSql (text : String)
deriving DecidableEq, Inhabited

/-- A name in double quotes. -/
def quoteName (name : String) : String :=
  quoted '"' name

def columnRef (source column : String) : String :=
  quoteName source ++ "." ++ quoteName column

/-- A name with its dots made underscores. -/
def undotted (name : String) : String :=
  String.ofList (name.toList.map fun c => if c = '.' then '_' else c)

end ConceptQuery
