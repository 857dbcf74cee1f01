import ConceptQuery.Grammar.ParseError
import ConceptQuery.Text.Position

/-! # Diagnostics

What an editor marks in a text. Only parse errors become diagnostics: a text that
parses and does not compile has none.
-/
namespace ConceptQuery

inductive Severity where
  | error | warning | info | hint
deriving DecidableEq, Inhabited

namespace Severity

def name : Severity → String
  | error => "Error"
  | warning => "Warning"
  | info => "Info"
  | hint => "Hint"

def all : List Severity := [error, warning, info, hint]

/-- The number that editors use for it. -/
def code : Severity → Nat
  | error => 1
  | warning => 2
  | info => 3
  | hint => 4

end Severity

structure Diagnostic where
  range : Range
  severity : Severity
  /-- Which check found it. -/
  code : Option String
  message : String
deriving DecidableEq, Inhabited

namespace Diagnostic

/-- A diagnostic at a place, without width until it is given an end. -/
def atPlace (severity : Severity) (p : Position) (message : String) : Diagnostic :=
  { range := ⟨p, p⟩, severity, code := none, message }

def upTo (d : Diagnostic) (stop : Position) : Diagnostic :=
  { d with range := ⟨d.range.start, stop⟩ }

def withCode (d : Diagnostic) (code : String) : Diagnostic :=
  { d with code := some code }

def isError (d : Diagnostic) : Bool :=
  d.severity = .error

/-- The diagnostic that covers the token at which reading got stuck. -/
def ofParseError (e : ParseError) : Diagnostic :=
  let start : Position := ⟨e.line - 1, e.column - 1⟩
  ((atPlace .error start e.message).upTo ⟨start.line, start.column + e.width⟩).withCode "parse"

end Diagnostic
end ConceptQuery
