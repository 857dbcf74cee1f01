import ConceptQuery.Model.CompileError
import ConceptQuery.Model.Datasource

/-! # Environments

All that a document knows: its concepts by address, its datasources by
identifier and its imports by namespace, each in the order in which they came.
Concepts and datasources are only ever added. Declaring a concept again in the
same way changes nothing; declaring it differently is an error.
-/
namespace ConceptQuery

structure ImportRecord where
  path : String
  asName : Option String := none
deriving DecidableEq, Inhabited

/-- The namespace that the imported concepts get. -/
def ImportRecord.space (r : ImportRecord) : String :=
  r.asName.getD r.path

structure Environment where
  space : String
  concepts : Catalog Concept
  datasources : Catalog Datasource
  imports : Catalog ImportRecord
deriving Inhabited

namespace Environment

/-- The count of all rows, which every environment has from the start. -/
def allRows : Concept :=
  { Concept.derived "all_rows" internalSpace .constant .integer
      (.call "count" [.literal (.number "1")]) with origin := .autoDerived }

def initial : Environment :=
  { space := localSpace, concepts := ⟨[(allRows.address, allRows)]⟩
    datasources := .empty, imports := .empty }

def concept? (env : Environment) (address : String) : Option Concept :=
  env.concepts.get? address

def typeOf (env : Environment) (address : String) : Option DataType :=
  (env.concept? address).map Concept.datatype

def addConcept (env : Environment) (c : Concept) (line : Nat) :
    Except CompileError Environment :=
  match env.concept? c.address with
  | some existing =>
    if existing.agrees c then .ok env else .error (.conflictingDeclaration c.address line)
  | none => .ok { env with concepts := env.concepts.insert c.address c }

def addDatasource (env : Environment) (d : Datasource) (line : Nat) :
    Except CompileError Environment :=
  if env.datasources.contains d.identifier then
    .error (.duplicateDatasource d.identifier line)
  else .ok { env with datasources := env.datasources.insert d.identifier d }

def addImport (env : Environment) (r : ImportRecord) : Environment :=
  { env with imports := env.imports.insert r.space r }

/-- The concepts that users may see. -/
def userConcepts (env : Environment) : List Concept :=
  env.concepts.values.filter fun c => !c.isInternal

/-- A property `name` that has the concept `parent` among its keys. -/
def propertyOf? (env : Environment) (parent name : String) : Option String :=
  let space := ((env.concept? parent).map Concept.space).getD env.space
  let candidate := Dotted.qualify space name
  match (env.concept? candidate).bind Concept.keys with
  | some keys => if keys.contains parent then some candidate else none
  | none => none

/-- `resolve?` on the segments of a name, last one first. -/
def resolveSegments? (env : Environment) : List String → Option String
  | [] => none
  | last :: parents =>
    let raw := Dotted.join (last :: parents).reverse
    if env.concepts.contains raw then some raw
    else if env.concepts.contains (Dotted.qualify env.space raw) then
      some (Dotted.qualify env.space raw)
    else match resolveSegments? env parents with
      | some parent => env.propertyOf? parent last
      | none => none

/-- The address that a written name stands for: the name itself; the name in the
namespace of the document; or a property, written behind a name of its parent. -/
def resolve? (env : Environment) (name : String) : Option String :=
  env.resolveSegments? (Dotted.segments name).reverse

end Environment
end ConceptQuery
