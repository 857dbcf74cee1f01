import ConceptQuery.Model.Concept

/-! # Datasources

A datasource binds columns of a table, or of a query, to concepts. Its identifier
is its name, with its namespace in front unless the document declares it itself.
-/
namespace ConceptQuery

inductive SourceAddress where
  | table (name : String)
  | query (text : String)
deriving DecidableEq, Inhabited

namespace SourceAddress

/-- A query is shown in parentheses. -/
def text : SourceAddress → String
  | table name => name
  | query text => "(" ++ text ++ ")"

def isQuery : SourceAddress → Bool
  | table _ => false
  | query _ => true

end SourceAddress

structure ColumnBinding where
  column : String
  concept : String
deriving DecidableEq, Inhabited

structure Datasource where
  name : String
  space : String
  columns : List ColumnBinding
  grain : List String
  address : SourceAddress
  isRoot : Bool
deriving DecidableEq, Inhabited

namespace Datasource

def identifier (d : Datasource) : String :=
  if d.space = localSpace then d.name else Dotted.qualify d.space d.name

def columnFor? (d : Datasource) (concept : String) : Option ColumnBinding :=
  d.columns.find? fun b => b.concept = concept

def binds (d : Datasource) (concept : String) : Bool :=
  (d.columnFor? concept).isSome

/-- A datasource of an imported module, seen from the importing one. -/
def requalified (d : Datasource) (into : String) : Datasource :=
  { d with
    space := into
    columns := d.columns.map fun b => { b with concept := requalify into b.concept }
    grain := d.grain.map (requalify into) }

end Datasource
end ConceptQuery
