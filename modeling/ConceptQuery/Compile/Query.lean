import ConceptQuery.Compile.Declaration
import ConceptQuery.Text.Decimal

/-! # Compiling datasources and queries

These come after all concepts are known, so every name in them has to resolve. A
select item `expr -> name` declares `name` on the way.
-/
namespace ConceptQuery.Compile

/-- The bindings of a column list. A raw column name waits for the next concept;
a concept without one is bound to the column of its own short name. -/
def columnsOf (env : Environment) (line : Nat) :
    Option String → List (Tree Leaf) → Except CompileError (List ColumnBinding)
  | _, [] => .ok []
  | raw, .node kind children :: rest =>
    if kind = .columnAlias then
      let column : Tree Leaf := .node kind children
      columnsOf env line (column.first?.map fun l => unquote l.text) rest
    else columnsOf env line raw rest
  | raw, .leaf leaf :: rest =>
    if leaf.isIdentifier then do
      let concept ← resolveNow env leaf.text (leafLine leaf line)
      let more ← columnsOf env line none rest
      return ⟨raw.getD (Dotted.lastSegment leaf.text), concept⟩ :: more
    else columnsOf env line raw rest

def resolveLeaves (env : Environment) (line : Nat) (leaves : List Leaf) :
    Except CompileError (List String) :=
  inSequence (leaves.map fun l => resolveNow env l.text (leafLine l line))

def sourceAddress (node : Tree Leaf) (line : Nat) : Except CompileError SourceAddress :=
  match node.child? .addressClause, node.child? .queryClause with
  | some clause, _ => do
    let table ← need "address" line "missing table" clause.identifiers.head?
    return .table table.text
  | none, some clause => do
    let query ← need "query" line "missing query"
      (clause.ownLeaves.find? fun l => l.kind = .string)
    return .query (unquote query.text)
  | none, none => .error (.malformed "datasource" line "missing address")

def datasourceOf (env : Environment) (node : Tree Leaf) : Except CompileError Datasource := do
  let line := lineOf node
  let name ← nameOf node "datasource"
  let columns ← match node.child? .columnList with
    | some list => columnsOf env line none list.children
    | none => pure []
  let grain ← match node.child? .grainClause with
    | some clause => resolveLeaves env line clause.identifiers
    | none => pure []
  let address ← sourceAddress node line
  return { name := name.text, space := env.space, columns, grain, address
           isRoot := node.hasKeyword "root" }

def datasource (node : Tree Leaf) : Build Statement := do
  let d ← Build.lift fun env => datasourceOf env node
  Build.change fun env => env.addDatasource d (lineOf node)
  return .datasource d (startLine? node)

/-- The concept that `expr -> name` declares. -/
def transformedConcept (env : Environment) (node : Tree Leaf) : Except CompileError Concept := do
  let line := lineOf node
  let exprNode ← need "select_transform" line "missing expression" node.nodes.head?
  let name ← need "select_transform" line "missing alias" node.identifiers.getLast?
  let lineage ← exprNow env exprNode
  let purpose := if lineage.hasAggregate then Purpose.metric else .property
  return { Concept.derived name.text env.space purpose (lineage.inferType env.typeOf) lineage with
    site := ⟨name.line, name.column, name.endLine, name.endColumn⟩ }

def selectItem (line : Nat) (item : Tree Leaf) : Build SelectItem := do
  let hidden := item.hasText "--"
  match item.child? .conceptAssignment, item.child? .selectTransform with
  | some assignment, _ =>
    let concept ← Build.lift fun env => do
      let leaf ← need "select_item" line "missing concept" assignment.identifiers.head?
      resolveNow env leaf.text (leafLine leaf line)
    return ⟨concept, hidden⟩
  | none, some transform =>
    let c ← Build.lift fun env => transformedConcept env transform
    register c (lineOf transform)
    return ⟨c.address, hidden⟩
  | none, none => throw (.malformed "select_item" line "empty item")

def selectItems (line : Nat) : List (Tree Leaf) → Build (List SelectItem)
  | [] => pure []
  | item :: rest => do
    let first ← selectItem line item
    let more ← selectItems line rest
    return first :: more

def conditionOf (env : Environment) (node : Tree Leaf) : Except CompileError (Option Expr) :=
  match (node.child? .whereClause).bind fun clause => clause.nodes.head? with
  | some condition => (exprNow env condition).map some
  | none => .ok none

def orderItem (env : Environment) (line : Nat) (item : Tree Leaf) :
    Except CompileError OrderItem := do
  let exprNode ← need "ordering" line "missing expression" item.nodes.head?
  let expr ← exprNow env exprNode
  return ⟨expr, item.hasKeyword "desc"⟩

def orderingOf (env : Environment) (line : Nat) (node : Tree Leaf) :
    Except CompileError (List OrderItem) :=
  match node.child? .orderByClause with
  | some clause => inSequence (clause.nodes.map (orderItem env line))
  | none => .ok []

def limitOf (line : Nat) (node : Tree Leaf) : Except CompileError (Option Nat) :=
  match node.child? .limitClause with
  | some clause => do
    let leaf ← need "limit" line "missing count" (clause.ownLeaves.find? fun l => l.kind = .number)
    match Decimal.read leaf.text with
    | .ok count => return some count
    | .error e => throw (.malformed "limit" line e.message)
  | none => .ok none

def select (node : Tree Leaf) : Build Select := do
  let line := lineOf node
  let items ← selectItems line (node.nodes.filter fun n => n.kind = .selectItem)
  let condition ← Build.lift fun env => conditionOf env node
  let orderBy ← Build.lift fun env => orderingOf env line node
  let limit ← Build.lift fun _ => limitOf line node
  return { items, condition, orderBy, limit, line := startLine? node }

def selects : List (Tree Leaf) → Build (List Select)
  | [] => pure []
  | node :: rest => do
    let first ← select node
    let more ← selects rest
    return first :: more

/-- One align item, which needs a concept for each of the selects. -/
def alignItem (env : Environment) (line count : Nat) (item : Tree Leaf) :
    Except CompileError AlignItem := do
  let name ← nameOf item "align_item"
  let concepts ← resolveLeaves env line (item.nodes.filterMap fun n => n.identifiers.head?)
  if concepts.length = count then return ⟨name.text, concepts⟩
  else throw (.malformed "align_item" line ("'" ++ name.text ++ "' aligns " ++
    toString concepts.length ++ " concepts across " ++ toString count ++ " selects"))

def alignment (env : Environment) (line count : Nat) (node : Tree Leaf) :
    Except CompileError (List AlignItem) :=
  match node.child? .alignClause with
  | some clause => inSequence (clause.nodes.map (alignItem env line count))
  | none => .ok []

def multiSelect (node : Tree Leaf) : Build Statement := do
  let parts ← selects (node.nodes.filter fun n => n.kind = .selectStatement)
  let align ← Build.lift fun env => alignment env (lineOf node) parts.length node
  return .multiSelect parts align (startLine? node)

def persist (node : Tree Leaf) : Build Statement := do
  let line := lineOf node
  let (target, table, selectNode) ← Build.lift fun _ => do
    let target ← need "persist" line "missing datasource" node.identifiers[0]?
    let table ← need "persist" line "missing table" node.identifiers[1]?
    let selectNode ← need "persist" line "missing select" (node.child? .selectStatement)
    return (target, table, selectNode)
  let s ← select selectNode
  return .persist target.text table.text s (startLine? node)

/-- The statement of a node that is left once concepts and datasources are done. -/
def query (node : Tree Leaf) : Build Statement :=
  match node.kind with
  | .selectStatement => .select <$> select node
  | .multiSelectStatement => multiSelect node
  | .persistStatement => persist node
  | other => throw (.malformed "statement" (lineOf node) ("unexpected " ++ other.ruleName))

end ConceptQuery.Compile
