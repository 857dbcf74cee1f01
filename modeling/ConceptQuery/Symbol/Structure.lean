import ConceptQuery.Symbol.Location

/-! # Datasources and imports as written

These are read from the tree alone, so they are there for a document that does
not compile, too.
-/
namespace ConceptQuery

structure DatasourceInfo where
  name : String
  /-- The table, or the name of a datasource that reads a query. -/
  address : String
  columns : List String
  grain : List String
  isRoot : Bool
  span : Span
deriving DecidableEq, Inhabited

structure ImportInfo where
  path : String
  asName : Option String
  span : Span
deriving DecidableEq, Inhabited

/-- The name by which the import is referred to. -/
def ImportInfo.displayName (i : ImportInfo) : String :=
  i.asName.getD i.path

namespace Tree

mutual
/-- The outermost nodes of a kind, in document order. -/
def outermost (kind : NodeKind) : Tree Leaf → List (Tree Leaf)
  | .leaf _ => []
  | .node k children =>
    if k = kind then [.node k children] else outermostIn kind children

def outermostIn (kind : NodeKind) : List (Tree Leaf) → List (Tree Leaf)
  | [] => []
  | t :: ts => outermost kind t ++ outermostIn kind ts
end

end Tree

namespace Span

/-- From the start of one span to the end of another. -/
def through (first last : Span) : Span :=
  ⟨first.startLine, first.startColumn, last.endLine, last.endColumn⟩

end Span

namespace DatasourceInfo

/-- The end column where no table says where the datasource ends. -/
def openEnd : Nat := 100

def namesIn (node : Tree Leaf) (kind : NodeKind) : List String :=
  ((node.child? kind).map fun n => n.identifiers.map Leaf.text).getD []

def ofNode? (node : Tree Leaf) : Option DatasourceInfo :=
  node.identifiers.head?.map fun name =>
    let table := (node.child? .addressClause).bind fun clause => clause.identifiers.head?
    { name := name.text
      address := (table.map Leaf.text).getD name.text
      columns := namesIn node .columnList
      grain := namesIn node .grainClause
      isRoot := node.hasKeyword "root"
      span := match table with
        | some table => name.span.through table.span
        | none =>
          ⟨name.span.startLine, name.span.startColumn, name.span.startLine, openEnd⟩ }

def ofTree (tree : Tree Leaf) : List DatasourceInfo :=
  (tree.outermost .datasource).filterMap ofNode?

end DatasourceInfo

namespace ImportInfo

def ofNode? (node : Tree Leaf) : Option ImportInfo :=
  match node.identifiers with
  | [] => none
  | path :: more =>
    some { path := path.text, asName := more.head?.map Leaf.text
           span := path.span.through (more.head?.getD path).span }

def ofTree (tree : Tree Leaf) : List ImportInfo :=
  (tree.outermost .importStatement).filterMap ofNode?

end ImportInfo
end ConceptQuery
