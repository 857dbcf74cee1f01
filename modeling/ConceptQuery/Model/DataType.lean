import ConceptQuery.Text.Ascii

/-! # Types of values

The types a concept may have. Several spellings may name one type; `name` is the
spelling that is printed and `sqlName` the one that queries use.
-/
namespace ConceptQuery

inductive DataType where
  | integer | string | float | numeric | bool | date | datetime | timestamp | unknown
deriving DecidableEq, Inhabited

namespace DataType

def ofName? (name : String) : Option DataType :=
  match Text.lowered name with
  | "int" | "integer" | "bigint" => some .integer
  | "string" => some .string
  | "float" => some .float
  | "numeric" => some .numeric
  | "bool" | "boolean" => some .bool
  | "date" => some .date
  | "datetime" => some .datetime
  | "timestamp" => some .timestamp
  | _ => none

def name : DataType → String
  | integer => "int"
  | string => "string"
  | float => "float"
  | numeric => "numeric"
  | bool => "bool"
  | date => "date"
  | datetime => "datetime"
  | timestamp => "timestamp"
  | unknown => "unknown"

def sqlName : DataType → String
  | integer => "INTEGER"
  | string => "VARCHAR"
  | float => "DOUBLE"
  | numeric => "DECIMAL"
  | bool => "BOOLEAN"
  | date => "DATE"
  | datetime | timestamp => "TIMESTAMP"
  | unknown => "VARCHAR"

def isNumeric : DataType → Bool
  | integer | float | numeric => true
  | _ => false

end DataType
end ConceptQuery
