import ConceptQuery.Compile.Comment
import ConceptQuery.Compile.Expression

/-! # Compiling concept declarations

A declaration gives a concept a type, or a lineage that says how it is computed.
Every key `k` brings a metric `k.count` along.
-/
namespace ConceptQuery.Compile

/-- Steps that may change the environment and may fail; what they did to it
before they failed stays done. -/
abbrev Build := ExceptT CompileError (StateM Environment)

def Build.lift {α : Type} (result : Environment → Except CompileError α) : Build α := do
  match result (← get) with
  | .ok a => return a
  | .error e => throw e

/-- Replaces the environment, or fails and leaves it alone. -/
def Build.change (result : Environment → Except CompileError Environment) : Build Unit := do
  match result (← get) with
  | .ok env => set env
  | .error e => throw e

/-- The number of different values of a key. -/
def countOf (key : Concept) : Concept :=
  { Concept.derived (key.name ++ ".count") key.space .metric .integer
      (.call "count" [.concept key.address]) with origin := .autoDerived }

def register (c : Concept) (line : Nat) : Build Unit := do
  Build.change fun env => env.addConcept c line
  if c.purpose = .key then
    Build.change fun env => env.addConcept (countOf c) line

/-- The concept with the place of its declaration and the comment behind it. -/
def described (lines : List (List Char)) (node : Tree Leaf) (c : Concept) : Concept :=
  { c with
    site :=
      { line := node.first?.bind Leaf.line, column := node.first?.bind Leaf.column
        endLine := node.last?.bind Leaf.endLine, endColumn := node.last?.bind Leaf.endColumn }
    description := node.last?.bind (trailingComment? lines) }

/-- A concept declared with a type. -/
def declaredConcept (lines : List (List Char)) (env : Environment) (node : Tree Leaf) :
    Except CompileError Concept := do
  let purpose ← purposeOf node
  let name ← nameOf node "concept_declaration"
  let datatype ← datatypeOf node
  return described lines node
    { name := name.text, space := env.space, datatype, purpose, nullable := isNullable node }

/-- The keys among the concepts of a lineage, if there are any. -/
def keysOf (env : Environment) (lineage : Expr) : Option (List String) :=
  let keys := lineage.concepts.filter fun a =>
    (env.concept? a).any fun c => c.purpose = .key
  if keys.isEmpty then none else some keys

/-- A property declared behind the name of its parent. -/
def propertyConcept (env : Environment) (node : Tree Leaf) (purpose : Purpose) (name : Leaf) :
    Except Blocker Concept := do
  let line := lineOf node
  let (parent, short) ← orFail (need "concept_property_declaration" line "missing parent"
    (Dotted.splitLast? name.text))
  let parentAddress ← resolveLater env parent line
  let datatype ← orFail (datatypeOf node)
  return { name := short, space := env.space, datatype, purpose, keys := some [parentAddress]
           nullable := isNullable node }

/-- A concept declared with a lineage. -/
def lineageConcept (env : Environment) (node : Tree Leaf) (purpose : Purpose) (name : Leaf) :
    Except Blocker Concept := do
  let lineageNode ← orFail (need "concept_derivation" (lineOf node) "missing expression"
    node.nodes.head?)
  let lineage ← expr env lineageNode
  let c := Concept.derived name.text env.space purpose (lineage.inferType env.typeOf) lineage
  return if purpose = .property then { c with keys := keysOf env lineage } else c

/-- A concept whose declaration mentions others. -/
def derivedConcept (lines : List (List Char)) (env : Environment) (node : Tree Leaf) :
    Except Blocker Concept := do
  let purpose ← orFail (purposeOf node)
  let name ← orFail (nameOf node node.kind.ruleName)
  let c ←
    if node.kind = .propertyDeclaration then propertyConcept env node purpose name
    else lineageConcept env node purpose name
  return described lines node c

end ConceptQuery.Compile
