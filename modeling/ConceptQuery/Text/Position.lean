/-! # Places in a text

Two conventions meet here. A `Span` counts lines and columns from one and keeps
both ends inside, so a cursor directly after a name still touches it. A `Range`
counts from zero, the way an editor asks. Columns count characters.
-/
namespace ConceptQuery

structure Position where
  line : Nat
  column : Nat
deriving DecidableEq, Inhabited

structure Range where
  start : Position
  stop : Position
deriving DecidableEq, Inhabited

structure Span where
  startLine : Nat
  startColumn : Nat
  endLine : Nat
  endColumn : Nat
deriving DecidableEq, Inhabited

namespace Range

def ofCoordinates (startLine startColumn endLine endColumn : Nat) : Range :=
  ⟨⟨startLine, startColumn⟩, ⟨endLine, endColumn⟩⟩

end Range

namespace Span

/-- Both ends belong to the span. On a span of several lines the columns only
matter on its first and last line. -/
def contains (s : Span) (line column : Nat) : Bool :=
  if line < s.startLine || s.endLine < line then false
  else if s.startLine = s.endLine then s.startColumn ≤ column && column ≤ s.endColumn
  else if line = s.startLine then s.startColumn ≤ column
  else if line = s.endLine then column ≤ s.endColumn
  else true

/-- The same test for a cursor, which counts from zero. -/
def covers (s : Span) (p : Position) : Bool :=
  s.contains (p.line + 1) (p.column + 1)

def toRange (s : Span) : Range :=
  .ofCoordinates (s.startLine - 1) (s.startColumn - 1) (s.endLine - 1) (s.endColumn - 1)

end Span
end ConceptQuery
