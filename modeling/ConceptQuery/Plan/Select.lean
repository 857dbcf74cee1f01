import ConceptQuery.Plan.Render
import ConceptQuery.Plan.Source

/-! # Planning selects

Once the sources are chosen, every item, the condition and the orderings become
text. If any item aggregates rows, the items that do not are grouped by; a
condition that aggregates filters groups instead of rows.
-/
namespace ConceptQuery.Plan

/-- All concepts that a select mentions, each once. -/
def needed (select : Select) : List String :=
  firstPlaces (select.items.map SelectItem.concept ++
    (select.condition.toList ++ select.orderBy.map OrderItem.expr).flatMap Expr.concepts)

/-- The name of the column that a concept becomes. -/
def columnName (env : Environment) (address : String) : String :=
  undotted (match env.concept? address with
    | some c => c.name
    | none => Dotted.lastSegment address)

/-- An item as text. -/
structure PlannedItem where
  sql : String
  name : String
  aggregate : Bool
  hidden : Bool

def planItems (scope : Scope) : List SelectItem → Except RenderError (List PlannedItem)
  | [] => .ok []
  | item :: rest => do
    let sql ← scope.conceptSql item.concept
    let more ← planItems scope rest
    return ⟨sql, columnName scope.env item.concept, scope.isAggregate item.concept, item.hidden⟩
      :: more

def planOrdering (scope : Scope) : List OrderItem → Except RenderError (List String)
  | [] => .ok []
  | item :: rest => do
    let sql ← scope.exprSql item.expr
    let more ← planOrdering scope rest
    return (sql ++ if item.descending then " DESC" else " ASC") :: more

/-- The items to group by: all that do not aggregate, if any does. -/
def grouping (items : List PlannedItem) : List String :=
  if items.any PlannedItem.aggregate then
    (items.filter fun i => !i.aggregate).map PlannedItem.sql
  else []

def outputColumns (items : List PlannedItem) : List OutputColumn :=
  (items.filter fun i => !i.hidden).map fun i => ⟨i.sql, i.name, i.aggregate⟩

/-- The plan of a select over the sources that were chosen for it. -/
def planOver (scope : Scope) (sources : List PlanSource) (select : Select) :
    Except RenderError Plan := do
  let items ← planItems scope select.items
  let condition ← match select.condition with
    | some e => some <$> scope.exprSql e
    | none => pure none
  let filtersGroups := select.condition.any scope.exprIsAggregate
  let orderBy ← planOrdering scope select.orderBy
  return {
    columns := outputColumns items
    sources
    condition := if filtersGroups then none else condition
    groupBy := grouping items
    having := if filtersGroups then condition else none
    orderBy
    limit := select.limit }

/-- What planning carries along: the columns of the concepts that are read. All
selects of a run share one planner. -/
structure Planner where
  bindings : Catalog String := .empty
deriving Inhabited

abbrev Planning := StateT Planner (Except RenderError)

def planSelect (call : CallWriter) (env : Environment) (select : Select) : Planning Plan := do
  -- what the select before this one has read is not read here
  set ({} : Planner)
  let roots ← rootsOf env (needed select)
  let choice ← chooseSources env (← get).bindings roots
  set (⟨choice.bindings⟩ : Planner)
  planOver ⟨env, call, choice.bindings⟩ choice.sources select

def planSelects (call : CallWriter) (env : Environment) : List Select → Planning (List Plan)
  | [] => return []
  | s :: rest => do
    let plan ← planSelect call env s
    let more ← planSelects call env rest
    return plan :: more

def alignColumn (env : Environment) (item : AlignItem) : AlignColumn :=
  ⟨item.name, item.concepts.map (columnName env)⟩

/-- The form of a statement. Declarations and imports have none. -/
def form? (call : CallWriter) (env : Environment) : Statement → Planning (Option Form)
  | .select s => do
    let plan ← planSelect call env s
    return some (.select plan)
  | .multiSelect selects align _ => do
    let parts ← planSelects call env selects
    return some (.multiSelect parts (align.map (alignColumn env)))
  | .persist _ table s _ => do
    let plan ← planSelect call env s
    return some (.persist table plan)
  | .rawSql text _ => return some (.rawSql text)
  | _ => return none

/-- The forms of all statements that have one, in order. -/
def planStatements (call : CallWriter) (env : Environment) :
    List Statement → Planning (List Form)
  | [] => return []
  | s :: rest => do
    let form ← form? call env s
    let more ← planStatements call env rest
    return form.toList ++ more

/-- The forms of a run of statements, planned one after the other by a new planner. -/
def forms (call : CallWriter) (env : Environment) (statements : List Statement) :
    Except RenderError (List Form) :=
  (planStatements call env statements).run' {}

end ConceptQuery.Plan
