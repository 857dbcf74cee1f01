import ConceptQuery.Text.Position

/-! # From byte offsets to lines and columns

A line ends after its newline. Offsets count UTF-8 bytes, columns count
characters, and both results count from zero. An offset past the end of the text
is read as its end; an offset inside a character has column zero.
-/
namespace ConceptQuery.LineIndex

/-- The walk behind `locate`: `reached` is the byte offset so far and `here` the
place of that offset. -/
def walk (offset : Nat) : List Char → Nat → Position → Position
  | [], reached, here => if offset < reached then ⟨here.line, 0⟩ else here
  | c :: rest, reached, here =>
    if offset < reached then ⟨here.line, 0⟩
    else if offset = reached then here
    else walk offset rest (reached + c.utf8Size)
      (if c = '\n' then ⟨here.line + 1, 0⟩ else ⟨here.line, here.column + 1⟩)

def locate (text : List Char) (offset : Nat) : Position :=
  walk offset text 0 ⟨0, 0⟩

/-- Every newline opens a line, also the last one. -/
def lineCount (text : List Char) : Nat :=
  text.count '\n' + 1

/-- The written form of a place counts from one. -/
def describe (p : Position) : String :=
  toString (p.line + 1) ++ ":" ++ toString (p.column + 1)

end ConceptQuery.LineIndex
