/-! # What can go wrong in a model

The causes for which a document has no model, and their messages.
-/
namespace ConceptQuery

inductive CompileError where
  | undefinedConcept (address : String) (line : Nat)
  | unknownDatatype (name : String) (line : Nat)
  | unknownFunction (name : String) (line : Nat)
  /-- An address declared twice with different definitions. -/
  | conflictingDeclaration (address : String) (line : Nat)
  | duplicateDatasource (name : String) (line : Nat)
  | importNotFound (path reason : String)
  | circularImport (path : String)
  | importParse (path message : String)
  /-- A tree of a shape that the rule does not have. -/
  | malformed (rule : String) (line : Nat) (message : String)
  /-- A pass was started before the one it needs. -/
  | notPrepared
deriving DecidableEq, Inhabited

namespace CompileError

def message : CompileError → String
  | undefinedConcept address line =>
    "Undefined concept '" ++ address ++ "' on line " ++ toString line
  | unknownDatatype name line => "Unknown datatype '" ++ name ++ "' on line " ++ toString line
  | unknownFunction name line => "Unknown function '" ++ name ++ "' on line " ++ toString line
  | conflictingDeclaration address line =>
    "Concept '" ++ address ++ "' redeclared with a different definition on line " ++ toString line
  | duplicateDatasource name line =>
    "Datasource '" ++ name ++ "' declared twice (line " ++ toString line ++ ")"
  | importNotFound path reason => "Cannot resolve import '" ++ path ++ "': " ++ reason
  | circularImport path => "Circular import of '" ++ path ++ "'"
  | importParse path message => "Failed to parse import '" ++ path ++ "': " ++ message
  | malformed rule line message =>
    "Invalid " ++ rule ++ " on line " ++ toString line ++ ": " ++ message
  | notPrepared => "Semantic passes run out of order"

/-- The line an error points at, where it has one. -/
def line? : CompileError → Option Nat
  | undefinedConcept _ line | unknownDatatype _ line | unknownFunction _ line
  | conflictingDeclaration _ line | duplicateDatasource _ line | malformed _ line _ => some line
  | importNotFound _ _ | circularImport _ | importParse _ _ | notPrepared => none

end CompileError
end ConceptQuery
