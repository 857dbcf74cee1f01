import ConceptQuery.Text.Dotted

/-! # File paths

Paths are texts with slashes. Appending to a path and exchanging the extension of
its last component keep everything else as written, doubled slashes included.
-/
namespace ConceptQuery.Path

/-- Appends with a slash between, unless one is there already. An absolute path
replaces what it is appended to. -/
def append (path segment : List Char) : List Char :=
  match segment with
  | '/' :: _ => segment
  | _ =>
    match path.getLast? with
    | none => segment
    | some '/' => path ++ segment
    | some _ => path ++ '/' :: segment

/-- Takes the part behind the last slash off a reversed path. -/
def splitReversed (reversed : List Char) : List Char × List Char :=
  ((reversed.takeWhile (· ≠ '/')).reverse, reversed.dropWhile (· ≠ '/'))

/-- Takes slashes and components `.` off the end of a reversed path, down to its
root or to a `.` that it starts with. -/
def trimEnd : (fuel : Nat) → List Char → List Char
  | 0, reversed => reversed
  | fuel + 1, reversed =>
    match splitReversed reversed with
    | ([], '/' :: c :: before) => trimEnd fuel (c :: before)
    | (['.'], '/' :: before) => trimEnd fuel ('/' :: before)
    | _ => reversed

/-- The last component, and the reversed path before it. -/
def split (path : List Char) : List Char × List Char :=
  splitReversed (trimEnd path.length path.reverse)

/-- A name without its extension. A dot at the start of the name opens none. -/
def stem (name : List Char) : List Char :=
  match name.reverse.dropWhile (· ≠ '.') with
  | [] => name
  | [_] => name
  | _ :: before => before.reverse

/-- Exchanges the extension of the last component, if that names anything. -/
def withExtension (path extension : List Char) : List Char :=
  match split path with
  | ([], _) | (['.'], _) | (['.', '.'], _) => path
  | (name, before) => before.reverse ++ stem name ++ '.' :: extension

/-- The path without its last component; a root and an empty path have none. -/
def parent? (path : List Char) : Option (List Char) :=
  match split path with
  | ([], _) => none
  | (_, before) => some (trimEnd before.length before).reverse

def sourceExtension : String := "preql"

/-- The file that an import path leads to: its segments are directories below the
working directory, the last one the file without its extension. -/
def fileFor (importPath working : String) : String :=
  let path := (Dotted.splitOn '.' importPath.toList).foldl append working.toList
  String.ofList (withExtension path sourceExtension.toList)

end ConceptQuery.Path
