import ConceptQuery.Model.Statement
import ConceptQuery.Tree.Leaf

/-! # Reading the shape of a statement

The parts that statements share: the line they start on, the purpose, name and
type that a declaration gives, and what a quoted word holds.
-/
namespace ConceptQuery.Compile

/-- The line of the first word, or the first line if that is not known. -/
def lineOf (node : Tree Leaf) : Nat :=
  (node.first?.bind Leaf.line).getD 1

/-- The line of the first word, where it is known. -/
def startLine? (node : Tree Leaf) : Option Nat :=
  node.first?.bind Leaf.line

def leafLine (leaf : Leaf) (fallback : Nat) : Nat :=
  leaf.line.getD fallback

/-- Insists on a part that the rule has. -/
def need {α : Type} (rule : String) (line : Nat) (message : String) :
    Option α → Except CompileError α
  | some a => .ok a
  | none => .error (.malformed rule line message)

def purposeOf (node : Tree Leaf) : Except CompileError Purpose := do
  let keyword ← need "concept" (lineOf node) "missing purpose"
    (node.ownLeaves.find? fun l => l.kind = .keyword)
  need "concept" (lineOf node) ("'" ++ keyword.text ++ "' is not a purpose")
    (Purpose.ofKeyword? keyword.text)

def nameOf (node : Tree Leaf) (rule : String) : Except CompileError Leaf :=
  need rule (lineOf node) "missing name" node.identifiers.head?

def datatypeOf (node : Tree Leaf) : Except CompileError DataType := do
  let leaf ← need "data_type" (lineOf node) "missing type"
    ((node.child? .datatype).bind fun d => d.ownLeaves.head?)
  match DataType.ofName? leaf.text with
  | some datatype => .ok datatype
  | none => .error (.unknownDatatype leaf.text (leafLine leaf (lineOf node)))

def isNullable (node : Tree Leaf) : Bool :=
  node.hasText "?"

/-- Takes off a pair of equal quotes; any other text stays as it is. -/
def unquote (text : String) : String :=
  match text.toList with
  | quote :: rest =>
    if (quote = '"' ∨ quote = '\'') ∧ rest.getLast? = some quote then String.ofList rest.dropLast
    else text
  | [] => text

def literalOf? (leaf : Leaf) : Option Literal :=
  match leaf.kind with
  | .number => some (.number leaf.text)
  | .string => some (.string (unquote leaf.text))
  | .keyword =>
    match Text.lowered leaf.text with
    | "true" => some (.bool true)
    | "false" => some (.bool false)
    | "null" => some .null
    | _ => none
  | _ => none

end ConceptQuery.Compile
