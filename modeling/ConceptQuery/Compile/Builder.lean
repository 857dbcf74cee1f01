import ConceptQuery.Compile.Query
import ConceptQuery.Grammar.ParseError

/-! # Compiling a document

The first pass declares what it can, imports modules and leaves everything else
in its slot. The second pass goes over the slots of concepts until no concept is
blocked any more, then takes the datasources and last the queries, each in the
order of the document. A module that is imported is compiled in the same way,
with an environment of its own, and its concepts and datasources move over under
the namespace of the import.
-/
namespace ConceptQuery.Compile

/-- The texts that can be imported, by import path, and why any other cannot. -/
structure Library where
  modules : List (String × String)
  absence : String → String

/-- How the text behind an import path is loaded. -/
abbrev Loader := String → Except CompileError String

def Library.load (library : Library) : Loader := fun path =>
  match Catalog.find path library.modules with
  | some text => .ok text
  | none => .error (.importNotFound path (library.absence path))

/-- A statement in its place: compiled, or still a tree. -/
inductive Slot where
  | ready (statement : Statement)
  | pending (node : Tree Leaf)
deriving Inhabited

/-- How the module behind a path is compiled. -/
abbrev Importer := String → Except CompileError Environment

/-- Moves what a module declares into the environment. The places of its concepts
lie in another text and are dropped. -/
def absorb (module : Environment) (space : String) (line : Nat) : Build Unit := do
  module.userConcepts.forM fun c =>
    Build.change fun env => env.addConcept { c.requalified space with site := {} } line
  module.datasources.values.forM fun d =>
    Build.change fun env => env.addDatasource (d.requalified space) line

def importStatement (importer : Importer) (node : Tree Leaf) : Build Statement := do
  let line := lineOf node
  let path ← Build.lift fun _ =>
    need "import_statement" line "missing path" node.identifiers.head?
  let record : ImportRecord := ⟨path.text, node.identifiers[1]?.map Leaf.text⟩
  let module ← Build.lift fun _ => importer record.path
  absorb module record.space line
  modify fun env => env.addImport record
  return .imported record (startLine? node)

def rawSql (node : Tree Leaf) : Except CompileError Statement := do
  let leaf ← need "raw_sql" (lineOf node) "missing query text"
    (node.ownLeaves.find? fun l => l.kind = .string)
  return .rawSql (unquote leaf.text) (startLine? node)

/-- Declares the concept of a node, or says which name it waits for. -/
def tryConcept (lines : List (List Char)) (node : Tree Leaf) :
    Build (Except (String × Nat) Statement) := do
  match derivedConcept lines (← get) node with
  | .ok c =>
    register c (lineOf node)
    return .ok (.concept c (startLine? node))
  | .error (.unresolved name line) => return .error (name, line)
  | .error (.failed e) => throw e

def firstPass (importer : Importer) (lines : List (List Char)) (node : Tree Leaf) :
    Build Slot := do
  match node.kind with
  | .conceptDeclaration =>
    let c ← Build.lift fun env => declaredConcept lines env node
    register c (lineOf node)
    return .ready (.concept c (startLine? node))
  | .propertyDeclaration | .conceptDerivation =>
    match ← tryConcept lines node with
    | .ok statement => return .ready statement
    | .error _ => return .pending node
  | .importStatement => return .ready (← importStatement importer node)
  | .rawSqlStatement => return .ready (← Build.lift fun _ => rawSql node)
  | .datasource | .selectStatement | .multiSelectStatement | .persistStatement =>
    return .pending node
  | other => throw (.malformed "statement" (lineOf node) ("unexpected " ++ other.ruleName))

/-- One round over the slots: what they are now, whether any concept got done, and
the first name that still blocks one. -/
structure Round where
  slots : List Slot
  progressed : Bool
  blocked : Option (String × Nat)

def isConceptNode (node : Tree Leaf) : Bool :=
  node.kind = .propertyDeclaration || node.kind = .conceptDerivation

def sweep (lines : List (List Char)) : List Slot → Build Round
  | [] => pure ⟨[], false, none⟩
  | .ready statement :: rest => do
    let round ← sweep lines rest
    return { round with slots := .ready statement :: round.slots }
  | .pending node :: rest =>
    if isConceptNode node then do
      match ← tryConcept lines node with
      | .ok statement =>
        let round ← sweep lines rest
        return { round with slots := .ready statement :: round.slots, progressed := true }
      | .error name =>
        let round ← sweep lines rest
        return { round with slots := .pending node :: round.slots, blocked := some name }
    else do
      let round ← sweep lines rest
      return { round with slots := .pending node :: round.slots }

/-- Rounds until nothing is blocked. A round that gets nothing done while a name
blocks is the last; each other one fills a slot, so `fuel` slots need at most as
many rounds and one more. -/
def resolvePending (lines : List (List Char)) : (fuel : Nat) → List Slot → Build (List Slot)
  | 0, slots => pure slots
  | fuel + 1, slots => do
    let round ← sweep lines slots
    match round.blocked with
    | none => return round.slots
    | some (name, line) =>
      if round.progressed then resolvePending lines fuel round.slots
      else throw (.undefinedConcept name line)

def bindDatasources : List Slot → Build (List Slot)
  | [] => pure []
  | .ready statement :: rest => do return .ready statement :: (← bindDatasources rest)
  | .pending node :: rest => do
    let slot ← if node.kind = .datasource then .ready <$> datasource node else pure (.pending node)
    return slot :: (← bindDatasources rest)

def finish : List Slot → Build (List Statement)
  | [] => pure []
  | .ready statement :: rest => do return statement :: (← finish rest)
  | .pending node :: rest => do
    let statement ← query node
    return statement :: (← finish rest)

def secondPass (lines : List (List Char)) (slots : List Slot) : Build (List Statement) := do
  let slots ← resolvePending lines (slots.length + 1) slots
  let slots ← bindDatasources slots
  finish slots

end Compile

open Compile

/-- A compilation under way. -/
structure Builder where
  env : Environment
  lines : List (List Char) := []
  slots : List Slot := []
  prepared : Bool := false
deriving Inhabited

namespace Builder

/-- The text whose comments describe the concepts. -/
def setText (b : Builder) (text : String) : Builder :=
  { b with lines := linesOf text }

def prepare (b : Builder) : Builder :=
  { b with slots := [], prepared := true }

def firstPasses (importer : Importer) :
    List (Tree Leaf) → Builder → Except CompileError Unit × Builder
  | [], b => (.ok (), b)
  | node :: rest, b =>
    match (firstPass importer b.lines node).run.run b.env with
    | (.ok slot, env) => firstPasses importer rest { b with env, slots := b.slots ++ [slot] }
    | (.error e, env) => (.error e, { b with env })

/-- The first pass over the statements of a tree. -/
def transform (importer : Importer) (tree : Tree Leaf) (b : Builder) :
    Except CompileError Unit × Builder :=
  if b.prepared then firstPasses importer tree.nodes b else (.error .notPrepared, b)

/-- The second pass. It empties the slots, whether it succeeds or not. -/
def runSecondPass (b : Builder) : Except CompileError (List Statement) × Builder :=
  if b.prepared then
    match (secondPass b.lines b.slots).run.run b.env with
    | (result, env) => (result, { b with env, slots := [] })
  else (.error .notPrepared, b)

end Builder

namespace Compile

/-- Both passes over one text, from an environment that knows nothing yet. -/
def compileText (importer : Importer) (text : String) (tree : Tree Leaf) :
    Except CompileError Environment :=
  let start := ({ env := .initial : Builder }.setText text).prepare
  match start.transform importer tree with
  | (.error e, _) => .error e
  | (.ok _, b) =>
    match b.runSecondPass with
    | (.error e, _) => .error e
    | (.ok _, b) => .ok b.env

/-- The text and tree behind an import path. A path that is being compiled
already leads back to itself. -/
def openModule (load : Loader) (stack : List String) (path : String) :
    Except CompileError (String × Tree Leaf) :=
  if stack.contains path then .error (.circularImport path)
  else match load path with
    | .error e => .error e
    | .ok text =>
      match parse text with
      | .ok tree => .ok (text, tree)
      | .error errors =>
        .error (.importParse path
          ((errors.head?.map ParseError.message).getD (ParseError.summary errors)))

/-- Compiles the module behind a path; `stack` holds the paths being compiled.
Each nested import is a path that is not on the stack yet, so the number of paths
that can be loaded bounds the depth. -/
def compileModule (load : Loader) :
    (depth : Nat) → (stack : List String) → Importer
  | 0, stack, path =>
    match openModule load stack path with
    | .error e => .error e
    | .ok _ => .error (.circularImport path)
  | depth + 1, stack, path =>
    match openModule load stack path with
    | .error e => .error e
    | .ok (text, tree) =>
      compileText (compileModule load depth (stack ++ [path])) text tree

/-- The importer of a document that is no module itself. -/
def Library.importer (library : Library) : Importer :=
  compileModule library.load library.modules.length []

end Compile
end ConceptQuery
