import ConceptQuery.Compile.Pass
import ConceptQuery.Editor.Config
import ConceptQuery.Editor.Diagnostic
import ConceptQuery.Editor.Highlight
import ConceptQuery.Files.FileTree
import ConceptQuery.Lens
import ConceptQuery.Symbol.Structure

/-! # Snapshots of a document

Everything that the features of an editor read about one text. A text that does
not parse gives diagnostics and nothing else; a text that parses and does not
compile keeps what its tree shows, without metadata and without lenses.
`Snapshot.build` says what the snapshot of a text is; `Snapshot.Stage` takes the way
there in stages, between which a build may be given up.
-/
namespace ConceptQuery

structure Snapshot where
  text : String := ""
  /-- How far compiling came, for a text that parses. -/
  state : Option PassState := none
  locations : List Location := []
  metadata : MetadataMap := .empty
  datasources : List DatasourceInfo := []
  imports : List ImportInfo := []
  lenses : List Lens := []
  diagnostics : List Diagnostic := []
  highlights : List Highlight := []
deriving Inhabited

namespace Snapshot

def isResolved (s : Snapshot) : Bool :=
  s.state = some .resolved

/-- The scheme of documents that are files. -/
def fileScheme : String := "file://"

/-- Whether a text stands somewhere in another. -/
def occursIn (part : List Char) : List Char → Bool
  | [] => part.isEmpty
  | c :: rest => part.isPrefixOf (c :: rest) || occursIn part rest

/-- The path of a document that is a file. Names with another scheme are none. -/
def filePath? (document : String) : Option (List Char) :=
  let name := document.toList
  if fileScheme.toList.isPrefixOf name then some (name.drop fileScheme.toList.length)
  else if occursIn "://".toList name then none
  else some name

/-- The directory of a document that is a file in one. -/
def directory? (document : String) : Option String :=
  match (filePath? document).bind Path.parent? with
  | none | some [] => none
  | some path => some (String.ofList path)

def workingPath (config : Config) (document : String) : Option String :=
  config.workingPath <|> directory? document

/-- Compiles the tree of a document with the imports that it can reach. -/
def compile (files : FileTree) (working : Option String) (text : String) (tree : Tree Leaf) :
    Compilation :=
  Compilation.run (files.importer working tree) .initial text tree

/-- What the tree alone shows. -/
def surface (config : Config) (text : String) (tree : Tree Leaf) : Snapshot :=
  { text
    locations := Location.ofTree config.space tree
    datasources := DatasourceInfo.ofTree tree
    imports := ImportInfo.ofTree tree
    highlights := Highlight.ofTree tree }

/-- Adds what compiling gave. -/
def withCompilation (dialect : Dialect) (result : Compilation) (surface : Snapshot) : Snapshot :=
  { surface with
    state := some result.state
    metadata := result.metadata
    lenses :=
      if result.state = .resolved then Lens.all dialect result.env result.statements else [] }

def ofTree (dialect : Dialect) (config : Config) (files : FileTree) (document text : String)
    (tree : Tree Leaf) : Snapshot :=
  (surface config text tree).withCompilation dialect
    (compile files (workingPath config document) text tree)

/-- What a text that does not parse shows. -/
def ofErrors (text : String) (errors : List ParseError) : Snapshot :=
  { text, diagnostics := errors.map Diagnostic.ofParseError }

def build (dialect : Dialect) (config : Config) (files : FileTree) (document text : String) :
    Snapshot :=
  match parse text with
  | .ok tree => ofTree dialect config files document text tree
  | .error errors => ofErrors text errors

/-- How far a snapshot has come. -/
inductive Stage where
  | unread
  | parsed (tree : Tree Leaf)
  | surveyed (tree : Tree Leaf) (surface : Snapshot)
  | compiled (surface : Snapshot) (result : Compilation)
  | complete (snapshot : Snapshot)

namespace Stage

/-- The stage that comes next. A text that does not parse is complete at once. -/
def next (dialect : Dialect) (config : Config) (files : FileTree) (document text : String) :
    Stage → Stage
  | unread =>
    match parse text with
    | .ok tree => parsed tree
    | .error errors => complete (ofErrors text errors)
  | parsed tree => surveyed tree (Snapshot.surface config text tree)
  | surveyed tree surface =>
    compiled surface (compile files (workingPath config document) text tree)
  | compiled surface result => complete (surface.withCompilation dialect result)
  | complete snapshot => complete snapshot

/-- The stages that look whether they are still wanted before they go on. -/
def isCheckpoint : Stage → Bool
  | parsed _ | surveyed _ _ | compiled _ _ => true
  | unread | complete _ => false

def snapshot? : Stage → Option Snapshot
  | complete snapshot => some snapshot
  | unread | parsed _ | surveyed _ _ | compiled _ _ => none

/-- The number of stages that are left at most. -/
def left : Stage → Nat
  | unread => 4
  | parsed _ => 3
  | surveyed _ _ => 2
  | compiled _ _ => 1
  | complete _ => 0

theorem left_next_lt {dialect : Dialect} {config : Config} {files : FileTree}
    {document text : String} {stage : Stage} (h : stage.snapshot? = none) :
    (stage.next dialect config files document text).left < stage.left := by
  cases stage with
  | unread =>
    rw [next]
    split
    · exact Nat.lt_succ_self 3
    · exact Nat.succ_pos 3
  | parsed tree => exact Nat.lt_succ_self 2
  | surveyed tree surface => exact Nat.lt_succ_self 1
  | compiled surface result => exact Nat.lt_succ_self 0
  | complete snapshot => cases h

end Stage

end Snapshot
end ConceptQuery
