import ConceptQuery.Editor.Snapshot

/-! # Outlines

The declared concepts that resolve to a symbol, the datasources and the imports of
a document, by the line they start on. On one line, concepts come first and
imports last.
-/
namespace ConceptQuery

inductive OutlineKind where
  | module | property | derived | constant | number | key | table
deriving DecidableEq, Inhabited

namespace OutlineKind

def ofRole : Role → OutlineKind
  | .key => key
  | .property => property
  | .metric => number
  | .constant => constant
  | .auto => derived

/-- The number that editors use for it. -/
def code : OutlineKind → Nat
  | module => 2
  | property => 7
  | derived => 13
  | constant => 14
  | number => 16
  | key => 20
  | table => 23

end OutlineKind

structure OutlineEntry where
  name : String
  kind : OutlineKind
  detail : String
  range : Range
deriving DecidableEq, Inhabited

/-- A role and a type, as lists show them beside a name. -/
def Metadata.detail (m : Metadata) : String :=
  m.role.name ++ ": " ++ m.datatype

/-- Where a datasource reads from, as lists show it beside its name. -/
def DatasourceInfo.detail (d : DatasourceInfo) : String :=
  "datasource -> " ++ d.address

namespace OutlineEntry

def ofLocation? (metadata : MetadataMap) (l : Location) : Option OutlineEntry :=
  if l.isDefinition then
    (metadata.resolve? l.address).map fun m =>
      { name := m.name, kind := .ofRole m.role, detail := m.detail, range := l.span.toRange }
  else none

def ofDatasource (d : DatasourceInfo) : OutlineEntry :=
  { name := d.name, kind := .table, detail := d.detail, range := d.span.toRange }

def ofImport (i : ImportInfo) : OutlineEntry :=
  { name := i.displayName, kind := .module, detail := "import " ++ i.path
    range := i.span.toRange }

end OutlineEntry

def Snapshot.outline (s : Snapshot) : List OutlineEntry :=
  (s.locations.filterMap (OutlineEntry.ofLocation? s.metadata) ++
    s.datasources.map OutlineEntry.ofDatasource ++
    s.imports.map OutlineEntry.ofImport).mergeSort
      fun a b => a.range.start.line ≤ b.range.start.line

end ConceptQuery
