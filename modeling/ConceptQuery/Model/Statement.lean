import ConceptQuery.Model.Environment

/-! # Compiled statements

What the statements of a document become once all names in them are resolved.
-/
namespace ConceptQuery

structure SelectItem where
  concept : String
  /-- A hidden item is computed but not returned. -/
  hidden : Bool
deriving DecidableEq, Inhabited

structure OrderItem where
  expr : Expr
  descending : Bool
deriving Inhabited

structure Select where
  items : List SelectItem
  condition : Option Expr
  orderBy : List OrderItem
  limit : Option Nat
  line : Option Nat
deriving Inhabited

/-- The concepts that the select returns. -/
def Select.outputs (s : Select) : List String :=
  (s.items.filter fun i => !i.hidden).map SelectItem.concept

/-- One column of merged selects, with a concept of each. -/
structure AlignItem where
  name : String
  concepts : List String
deriving DecidableEq, Inhabited

inductive Statement where
  | concept (c : Concept) (line : Option Nat)
  | datasource (d : Datasource) (line : Option Nat)
  | imported (r : ImportRecord) (line : Option Nat)
  | select (s : Select)
  | multiSelect (selects : List Select) (align : List AlignItem) (line : Option Nat)
  | persist (datasource table : String) (select : Select) (line : Option Nat)
  | rawSql (text : String) (line : Option Nat)
deriving Inhabited

namespace Statement

/-- The line of the first word of the statement, counted from one. -/
def line? : Statement → Option Nat
  | concept _ line | datasource _ line | imported _ line | multiSelect _ _ line
  | persist _ _ _ line | rawSql _ line => line
  | select s => s.line

def kindName : Statement → String
  | concept _ _ => "concept"
  | datasource _ _ => "datasource"
  | imported _ _ => "import"
  | select _ => "select"
  | multiSelect _ _ _ => "multi_select"
  | persist _ _ _ _ => "persist"
  | rawSql _ _ => "raw_sql"

/-- Statements that become a query. -/
def isQuery : Statement → Bool
  | select _ | multiSelect _ _ _ | persist _ _ _ _ => true
  | _ => false

end Statement
end ConceptQuery
