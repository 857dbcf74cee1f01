import ConceptQuery.Model.Environment

/-! # What the editor knows about a symbol

Metadata is read from views of concepts. A view has a name, an address, a type
and a role; all else it may leave out, and it says which fields it fills in. A
view that leaves fields out still gives metadata, marked as partial. Concepts
without a name and internal concepts give none.
-/
namespace ConceptQuery

inductive Role where
  | key | property | metric | constant | auto
deriving DecidableEq, Inhabited

namespace Role

def name : Role → String
  | key => "key"
  | property => "property"
  | metric => "metric"
  | constant => "constant"
  | auto => "auto"

def ofPurpose : Purpose → Role
  | .key => key
  | .property => property
  | .metric => metric
  | .constant => constant
  | .auto => auto

end Role

structure Metadata where
  name : String
  address : String
  datatype : String
  role : Role
  space : String
  site : Site := {}
  description : Option String := none
  lineage : Option String := none
  dependencyKeys : Option (List String) := none
  modifiers : List String := []
  derivation : Option String := none
  sourceKind : Option String := none
deriving DecidableEq, Inhabited

def Metadata.isAutoDerived (m : Metadata) : Bool :=
  m.sourceKind = some Origin.autoDerived.name

/-- The fields that a view may leave out. -/
inductive MetadataField where
  | definition | description | lineage | dependencyKeys | modifiers | derivation | sourceKind
deriving DecidableEq, Inhabited

namespace MetadataField

def name : MetadataField → String
  | definition => "definition"
  | description => "description"
  | lineage => "lineage"
  | dependencyKeys => "dependency_keys"
  | modifiers => "modifiers"
  | derivation => "derivation"
  | sourceKind => "source_kind"

def all : List MetadataField :=
  [definition, description, lineage, dependencyKeys, modifiers, derivation, sourceKind]

end MetadataField

/-- A concept as a symbol graph shows it. -/
structure ConceptView extends Metadata where
  provided : List MetadataField := []
deriving Inhabited

def Concept.view (c : Concept) : ConceptView :=
  { name := c.name, address := c.address, datatype := c.datatype.name
    role := .ofPurpose c.purpose, space := c.space, site := c.site
    description := c.description, lineage := c.lineage.map Expr.text, dependencyKeys := c.keys
    modifiers := c.modifiers, derivation := some c.derivation.name
    sourceKind := some c.origin.name, provided := MetadataField.all }

inductive Extraction where
  | complete (metadata : Metadata)
  | incomplete (metadata : Metadata) (missing : List MetadataField)
  | skipped (address reason : String)

namespace Extraction

def ofView (v : ConceptView) : Extraction :=
  if v.name = "" then .skipped v.address "concept has no name"
  else if internalSpace.toList.isPrefixOf v.space.toList then
    .skipped v.address "internal namespace"
  else
    match MetadataField.all.filter fun f => !v.provided.contains f with
    | [] => .complete v.toMetadata
    | missing => .incomplete v.toMetadata missing

def metadata? : Extraction → Option Metadata
  | complete m | incomplete m _ => some m
  | skipped _ _ => none

end Extraction

/-- Metadata by canonical address, in the order of the model. -/
abbrev MetadataMap := Catalog Metadata

def MetadataMap.ofViews (views : List ConceptView) : MetadataMap :=
  .ofList ((views.filterMap fun v => (Extraction.ofView v).metadata?).map fun m => (m.address, m))

def Environment.metadata (env : Environment) : MetadataMap :=
  .ofViews (env.concepts.values.map Concept.view)

end ConceptQuery
