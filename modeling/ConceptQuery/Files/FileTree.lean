import ConceptQuery.Compile.Builder
import ConceptQuery.Files.Path

/-! # A tree of files to import from

Files by absolute path. Reading follows a path component by component, so `..`
leaves a directory only if that directory is there. A relative path starts from a
directory outside the tree, where nothing is found.
-/
namespace ConceptQuery

structure FileTree where
  /-- Files as components of their absolute path, with their texts. -/
  files : List (List String × String)
  /-- Directories that are there besides those that hold files. -/
  directories : List (List String) := []
deriving Inhabited

namespace FileTree

inductive ReadError where
  | missing
  | notDirectory
  | isDirectory
  | nameTooLong
  | zeroInName
deriving DecidableEq

def ReadError.message : ReadError → String
  | missing => "No such file or directory (os error 2)"
  | notDirectory => "Not a directory (os error 20)"
  | isDirectory => "Is a directory (os error 21)"
  | nameTooLong => "File name too long (os error 36)"
  | zeroInName => "file name contained an unexpected NUL byte"

def empty : FileTree := ⟨[], []⟩

def text? (tree : FileTree) (path : List String) : Option String :=
  (tree.files.find? fun f => f.1 = path).map Prod.snd

def isDirectory (tree : FileTree) (path : List String) : Bool :=
  path.isEmpty || tree.files.any (fun f => path.isPrefixOf f.1 && path ≠ f.1) ||
    tree.directories.any fun d => path.isPrefixOf d

/-- A name has at most this many bytes. -/
def greatestName : Nat := 255

/-- A whole path has at most this many bytes. -/
def greatestPath : Nat := 4095

/-- Follows the components from a place in the tree. -/
def follow (tree : FileTree) : List String → List String → Except ReadError (List String)
  | place, [] => .ok place
  | place, component :: rest =>
    if tree.isDirectory place then
      if component = "" ∨ component = "." then follow tree place rest
      else if component = ".." then follow tree place.dropLast rest
      else if greatestName < component.utf8ByteSize then .error .nameTooLong
      else
        let next := place ++ [component]
        if tree.isDirectory next || (tree.text? next).isSome then follow tree next rest
        else .error .missing
    else .error .notDirectory

def locate (tree : FileTree) (path : String) : Except ReadError (List String) :=
  let components := (Dotted.splitOn '/' path.toList).map String.ofList
  if path.toList.contains '\x00' then .error .zeroInName
  else if greatestPath < path.utf8ByteSize then .error .nameTooLong
  else if path = "" then .error .missing
  else match components with
    | "" :: below => follow tree [] below
    | names => follow empty [] names

def read (tree : FileTree) (path : String) : Except ReadError String :=
  match tree.locate path with
  | .error e => .error e
  | .ok place =>
    match tree.text? place with
    | some text => .ok text
    | none => .error .isDirectory

/-- The import path that leads from a directory to a file below it. -/
def importPath? (directory file : List String) : Option String :=
  if directory.isPrefixOf file then
    match (file.drop directory.length).reverse with
    | [] => none
    | name :: parents =>
      some (Dotted.join (String.ofList (Path.stem name.toList) :: parents).reverse)
  else none

/-- The import paths of all files below the working directory. -/
def importPaths (tree : FileTree) (working : String) : List String :=
  match tree.locate working with
  | .ok directory => tree.files.filterMap fun f => importPath? directory f.1
  | .error _ => []

/-- What can be imported from a working directory: all files below it, and
whatever else the given names lead to. -/
def library (tree : FileTree) (working : Option String) (names : List String) : Compile.Library :=
  match working with
  | none => ⟨[], fun _ => "no working path configured"⟩
  | some directory =>
    { modules := (names ++ tree.importPaths directory).filterMap fun name =>
        match tree.read (Path.fileFor name directory) with
        | .ok text => some (name, text)
        | .error _ => none
      absence := fun name =>
        let file := Path.fileFor name directory
        match tree.read file with
        | .ok _ => file ++ ": " ++ ReadError.missing.message
        | .error e => file ++ ": " ++ e.message }

/-- How a document imports from a working directory. Whatever word of it may be
an import path is looked up. -/
def importer (files : FileTree) (working : Option String) (document : Tree Leaf) :
    Compile.Importer :=
  (files.library working (document.leaves.map Leaf.text)).importer

end FileTree
end ConceptQuery
