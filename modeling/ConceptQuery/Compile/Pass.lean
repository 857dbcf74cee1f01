import ConceptQuery.Compile.Builder
import ConceptQuery.Symbol.Metadata

/-! # The two passes in order

A pass starts empty, declares once and resolves once. Any step out of this order
is refused and changes nothing; a step that fails ends the pass.
-/
namespace ConceptQuery

inductive PassState where
  | empty
  | declared
  | resolved
  | failed
deriving DecidableEq, Inhabited

def PassState.name : PassState → String
  | empty => "Empty"
  | declared => "StructurallyDeclared"
  | resolved => "Resolved"
  | failed => "Failed"

structure Pass where
  builder : Builder
  state : PassState := .empty
deriving Inhabited

namespace Pass

def declare (importer : Compile.Importer) (text : String) (tree : Tree Leaf) (p : Pass) :
    Except CompileError Unit × Pass :=
  if p.state = .empty then
    match (p.builder.setText text).prepare.transform importer tree with
    | (.ok u, b) => (.ok u, ⟨b, .declared⟩)
    | (.error e, b) => (.error e, ⟨b, .failed⟩)
  else (.error .notPrepared, p)

def resolve (p : Pass) : Except CompileError (List Statement) × Pass :=
  if p.state = .declared then
    match p.builder.runSecondPass with
    | (.ok statements, b) => (.ok statements, ⟨b, .resolved⟩)
    | (.error e, b) => (.error e, ⟨b, .failed⟩)
  else (.error .notPrepared, p)

end Pass

/-- What compiling a document gives. After an error there are no statements and
no metadata, and the environment is what was declared before it. -/
structure Compilation where
  state : PassState
  metadata : MetadataMap
  statements : List Statement
  env : Environment
  error : Option CompileError
deriving Inhabited

def Compilation.run (importer : Compile.Importer) (env : Environment) (text : String)
    (tree : Tree Leaf) : Compilation :=
  let failed (e : CompileError) (p : Pass) : Compilation :=
    ⟨p.state, .empty, [], p.builder.env, some e⟩
  match ({ builder := { env } : Pass }).declare importer text tree with
  | (.error e, p) => failed e p
  | (.ok _, p) =>
    match p.resolve with
    | (.error e, p) => failed e p
    | (.ok statements, p) =>
      ⟨p.state, p.builder.env.metadata, statements, p.builder.env, none⟩

end ConceptQuery
