import ConceptQuery.Editor.Snapshot

/-! # Definitions and references

From a place in the text to where its concept is declared, and to all places that
stand for the same concept. Two places stand for the same concept if they resolve
to the same symbol, however it is written there.
-/
namespace ConceptQuery

structure Target where
  range : Range
  address : String
deriving DecidableEq, Inhabited

structure Mention where
  range : Range
  isDefinition : Bool
deriving DecidableEq, Inhabited

structure References where
  /-- The concept at the cursor, if there is one. -/
  address : Option String := none
  mentions : List Mention := []
deriving DecidableEq, Inhabited

namespace Target

/-- The end column of a declaration whose end is not known. -/
def openEnd : Nat := 100

def ofLocation (l : Location) : Target :=
  ⟨l.span.toRange, l.address⟩

/-- The place that the compiler recorded for a symbol. -/
def ofMetadata? (m : Metadata) : Option Target :=
  (m.site.line.filter (0 < ·)).map fun line =>
    { range := .ofCoordinates (line - 1) (m.site.column.getD 0 - 1)
        (m.site.endLine.getD line - 1) ((m.site.endColumn.map (· - 1)).getD openEnd)
      address := m.address }

end Target

def Mention.ofLocation (l : Location) : Mention :=
  ⟨l.span.toRange, l.isDefinition⟩

namespace Snapshot

/-- The recorded place of a symbol is preferred to the places in the text that
declare the same address. -/
def definitionsFor (s : Snapshot) (l : Location) : List Target :=
  match (s.metadata.resolve? l.address).bind Target.ofMetadata? with
  | some target => [target]
  | none => (Location.definitionsOf s.locations l.address).map Target.ofLocation

/-- A cursor on a definition leads nowhere. -/
def definitionAt (s : Snapshot) (p : Position) : List Target :=
  match Location.touching? s.locations p with
  | none => []
  | some l => if l.isDefinition then [] else s.definitionsFor l

def referencesAt (s : Snapshot) (p : Position) (withDefinitions : Bool) : References :=
  match Location.touching? s.locations p with
  | none => {}
  | some l =>
    let address := (s.metadata.resolveAddress? l.address).getD l.address
    let places := (Location.matching s.locations s.metadata address).filter fun m =>
      withDefinitions || !m.isDefinition
    { address := some address, mentions := places.map Mention.ofLocation }

end Snapshot
end ConceptQuery
