import ConceptQuery.Dialect.Basic
import ConceptQuery.Text.Position

/-! # Actions above statements

A statement that can be run gets an action that runs its query and, unless it is
a raw query, one that shows it. An action lies on the line that the statement
starts on. A statement that cannot be rendered takes none from the others.
-/
namespace ConceptQuery

inductive LensArgument where
  | text (value : String)
  | texts (values : List String)
deriving DecidableEq, Inhabited

structure Lens where
  range : Range
  title : String
  command : String
  arguments : List LensArgument
  /-- The index of the statement. -/
  statement : Nat
deriving DecidableEq, Inhabited

inductive LensFailure where
  | missingPosition (index : Nat) (kind : String)
  | render (index : Nat) (cause : RenderError)
  | empty (index : Nat)
deriving DecidableEq, Inhabited

def LensFailure.message : LensFailure → String
  | missingPosition index kind =>
    kind ++ " statement " ++ toString index ++ " has no source position"
  | render index cause => "failed to render statement " ++ toString index ++ ": " ++ cause.message
  | empty index => "statement " ++ toString index ++ " rendered to nothing"

inductive LensOutcome where
  | built (lenses : List Lens)
  | notRunnable
  | failed (failure : LensFailure)
deriving DecidableEq, Inhabited

def LensOutcome.lenses : LensOutcome → List Lens
  | built lenses => lenses
  | notRunnable | failed _ => []

namespace Lens

def runCommand : String := "trilogy.runQuery"
def renderCommand : String := "trilogy.renderQuery"

def run (index line : Nat) (sql : String) : Lens :=
  { range := .ofCoordinates line 1 line 10, title := "Run Query", command := runCommand
    arguments := [.text sql], statement := index }

def reveal (index line : Nat) (sql dialect : String) : Lens :=
  { range := .ofCoordinates line 2 line 10, title := "Render SQL", command := renderCommand
    arguments := [.texts [sql], .text dialect], statement := index }

/-- The query of a statement; `none` if the dialect has no form for it. -/
def query (dialect : Dialect) (env : Environment) (s : Statement) :
    Except RenderError (Option String) := do
  let forms ← dialect.generate env [s]
  match forms.getLast? with
  | some form => some <$> dialect.print form
  | none => return none

def ofQuery (dialect : Dialect) (env : Environment) (index : Nat) (s : Statement) (line : Nat) :
    LensOutcome :=
  match query dialect env s with
  | .ok (some sql) => .built [run index line sql, reveal index line sql dialect.name]
  | .ok none => .failed (.empty index)
  | .error cause => .failed (.render index cause)

def ofStatement (dialect : Dialect) (env : Environment) (index : Nat) (s : Statement) :
    LensOutcome :=
  match s, s.line? with
  | .concept _ _, _ | .datasource _ _, _ | .imported _ _, _ => .notRunnable
  | _, none => .failed (.missingPosition index s.kindName)
  | .rawSql text _, some line => .built [run index (line - 1) text]
  | _, some line => ofQuery dialect env index s (line - 1)

def outcomes (dialect : Dialect) (env : Environment) (statements : List Statement) :
    List LensOutcome :=
  statements.zipIdx.map fun (s, i) => ofStatement dialect env i s

/-- The lenses of all statements that have any, in order. -/
def all (dialect : Dialect) (env : Environment) (statements : List Statement) : List Lens :=
  (outcomes dialect env statements).flatMap LensOutcome.lenses

end Lens
end ConceptQuery
