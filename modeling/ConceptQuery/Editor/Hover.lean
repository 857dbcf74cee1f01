import ConceptQuery.Editor.Snapshot
import ConceptQuery.Text.Cursor

/-! # Hovers

What is shown over a datasource, an import or a concept, in this order: a cursor
inside the statement of a datasource is never over one of its columns. A concept
that resolves to no symbol is shown by the address it is recorded under.
-/
namespace ConceptQuery

structure Hover where
  contents : String
  /-- The symbol under the cursor, by its own address if it is known. -/
  address : Option String := none
  isDefinition : Bool := false
  range : Range
deriving DecidableEq, Inhabited

namespace Hover

/-- At most this many columns of a datasource are listed. -/
def maxColumns : Nat := 10

def code (s : String) : String := "`" ++ s ++ "`"

def codes (items : List String) : String :=
  ", ".intercalate (items.map code)

/-- A text that is there and not empty. -/
def given? (text : Option String) : Option String :=
  text.filter fun s => s ≠ ""

/-- The line that names a concept, its role and its type. -/
def heading (m : Metadata) : String :=
  "**" ++ m.role.name ++ "** " ++ code m.name ++ ": " ++ code m.datatype

def siteLine (isDefinition : Bool) (line : Nat) : String :=
  if isDefinition then "**Defined on line:** " ++ toString line
  else "**Definition:** line " ++ toString line

/-- The lines about a concept that stand between its description and its address. -/
def facts (config : Config) (m : Metadata) (isDefinition : Bool) : List String :=
  [ if m.space = "" || m.space = config.space then none
    else some ("**Namespace:** " ++ code m.space),
    (m.dependencyKeys.filter fun keys => !keys.isEmpty).map fun keys => "**Keys:** " ++ codes keys,
    (given? m.lineage).map fun lineage =>
      "**Derivation:** " ++ code (Text.shorten lineage config.hoverLimit (config.hoverLimit - 3)),
    if m.modifiers.isEmpty then none
    else some ("**Modifiers:** " ++ ", ".intercalate m.modifiers),
    (m.site.line.filter (0 < ·)).map (siteLine isDefinition),
    ((given? m.sourceKind).filter fun kind => kind ≠ Origin.manual.name).map
      fun kind => "**Source:** " ++ kind ].filterMap id

def ofMetadata (config : Config) (m : Metadata) (isDefinition : Bool) : String :=
  let description := match given? m.description with
    | some text => [text, ""]
    | none => []
  "\n".intercalate
    ([heading m, ""] ++ description ++ facts config m isDefinition ++
      ["", "*Full address: " ++ code m.address ++ "*"])

def columnLine (columns : List String) : String :=
  "**Columns:** " ++ codes (columns.take maxColumns) ++
    if columns.length ≤ maxColumns then "" else " ... (" ++ toString columns.length ++ " total)"

def ofDatasource (d : DatasourceInfo) : String :=
  "\n".intercalate
    (["**" ++ (if d.isRoot then "root datasource" else "datasource") ++ "** " ++ code d.name, "",
      "**Address:** " ++ code d.address] ++
     (if d.columns.isEmpty then [] else [columnLine d.columns]) ++
     (if d.grain.isEmpty then [] else ["**Grain:** " ++ codes d.grain]))

def ofImport (i : ImportInfo) : String :=
  let naming := match i.asName with
    | some name =>
      ["**Alias:** " ++ code name, "",
       "*Use " ++ code (name ++ ".concept_name") ++ " to reference concepts from this import*"]
    | none => []
  "\n".intercalate (["**import statement**", "", "**Path:** " ++ code i.path] ++ naming)

def ofUnresolved (l : Location) : String :=
  "**Concept:** " ++ code l.address ++ if l.isDefinition then "\n\n*(definition)*" else ""

def ofLocation (config : Config) (metadata : MetadataMap) (l : Location) : Hover :=
  let (contents, address) := match metadata.resolve? l.address with
    | some m => (ofMetadata config m l.isDefinition, m.address)
    | none => (ofUnresolved l, l.address)
  { contents, address := some address, isDefinition := l.isDefinition, range := l.span.toRange }

end Hover

/-- What is shown over a place of the text. -/
def Snapshot.hover? (s : Snapshot) (config : Config) (p : Position) : Option Hover :=
  match s.datasources.find? fun d => d.span.covers p with
  | some d => some { contents := Hover.ofDatasource d, range := d.span.toRange }
  | none =>
    match s.imports.find? fun i => i.span.covers p with
    | some i => some { contents := Hover.ofImport i, range := i.span.toRange }
    | none => (Location.touching? s.locations p).map (Hover.ofLocation config s.metadata)

end ConceptQuery
