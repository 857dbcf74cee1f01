import ConceptQuery.Model.Concept
import ConceptQuery.Symbol.Resolve
import ConceptQuery.Text.Position
import ConceptQuery.Tree.Leaf

/-! # Where symbols stand in the text

Every identifier that declares or mentions a concept has a location. Declared
names and undotted names are put into the namespace of the document; a dotted
name is kept as written, since its first segment may be a namespace already.
-/
namespace ConceptQuery

/-- The span of a word, with defaults for what is not known of its place. -/
def Leaf.span (leaf : Leaf) : Span :=
  let line := leaf.line.getD 1
  let column := leaf.column.getD 1
  ⟨line, column, leaf.endLine.getD line, leaf.endColumn.getD (column + leaf.text.toList.length)⟩

structure Location where
  address : String
  span : Span
  isDefinition : Bool
deriving DecidableEq, Inhabited

namespace Location

def ofLeaf (space : String) (parent : NodeKind) (leaf : Leaf) : Location :=
  { address :=
      if parent.isDefinition || !Dotted.isDotted leaf.text then Dotted.qualify space leaf.text
      else leaf.text
    span := leaf.span
    isDefinition := parent.isDefinition }

mutual
/-- All locations of a tree, in document order. -/
def ofTree (space : String) : Tree Leaf → List Location
  | .leaf _ => []
  | .node kind children => ofChildren space kind children

def ofChildren (space : String) (parent : NodeKind) : List (Tree Leaf) → List Location
  | [] => []
  | .leaf leaf :: rest =>
    if leaf.isIdentifier && parent.namesConcepts then
      ofLeaf space parent leaf :: ofChildren space parent rest
    else ofChildren space parent rest
  | .node kind children :: rest => ofTree space (.node kind children) ++ ofChildren space parent rest
end

/-- The first location that a cursor touches. -/
def touching? (locations : List Location) (p : Position) : Option Location :=
  locations.find? fun l => l.span.covers p

/-- The places that declare exactly this address. -/
def definitionsOf (locations : List Location) (address : String) : List Location :=
  locations.filter fun l => l.isDefinition && l.address = address

/-- Whether a location stands for the symbol with this address. One that resolves
to no symbol stands for the address it is recorded under. -/
def standsFor (map : MetadataMap) (address : String) (l : Location) : Bool :=
  match map.resolve? l.address with
  | some found => found.address = address
  | none => l.address = address

def matching (locations : List Location) (map : MetadataMap) (address : String) : List Location :=
  locations.filter (standsFor map address)

end Location
end ConceptQuery
