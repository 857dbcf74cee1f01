import ConceptQuery.Plan.Basic

/-! # Which datasources a select reads

The roots of a select are the concepts that have to be read: those it needs that
a datasource binds or that have no lineage, and otherwise the roots of what their
lineage mentions. Datasources are chosen one after the other, each time the one
that binds most of the roots still missing, the first of several such. All but
the first have to share a concept with one that was chosen before.
-/
namespace ConceptQuery.Plan

def addOnce (set : List String) (name : String) : List String :=
  if set.contains name then set else set ++ [name]

def isBound (env : Environment) (address : String) : Bool :=
  env.datasources.values.any fun d => d.binds address

/-- Roots found so far, and the concepts passed on the way. -/
structure Search where
  roots : List String
  passed : List String
deriving Inhabited

/-- Adds the roots of a concept. Each call passes a concept for the first time,
so `fuel` is at most the number of concepts and one more. -/
def collectRoots (env : Environment) :
    (fuel : Nat) → Search → String → Except RenderError Search
  | 0, search, _ => .ok search
  | fuel + 1, search, address =>
    if search.passed.contains address then .ok search
    else
      let search := { search with passed := search.passed ++ [address] }
      match env.concept? address with
      | none => .error (.unknownConcept address)
      | some c =>
        match c.lineage with
        | some lineage =>
          if isBound env address then .ok { search with roots := addOnce search.roots address }
          else lineage.concepts.foldlM (collectRoots env fuel) search
        | none => .ok { search with roots := addOnce search.roots address }

/-- The roots of several concepts, in order. -/
def rootsOf (env : Environment) (needed : List String) : Except RenderError (List String) :=
  needed.foldlM (fun roots address => do
    let search ← collectRoots env (env.concepts.size + 1) ⟨roots, []⟩ address
    return search.roots) []

/-- The concepts that two datasources share, in the order of the first. -/
def shared (partner d : Datasource) : List String :=
  (partner.columns.filter fun b => d.binds b.concept).map ColumnBinding.concept

/-- The first chosen datasource that shares a concept with another. -/
def joinPartner? (chosen : List Datasource) (d : Datasource) : Option Datasource :=
  chosen.find? fun partner => !(shared partner d).isEmpty

def aliasFor (d : Datasource) : String :=
  undotted d.identifier

/-- The columns to equate when a datasource is joined to what was chosen. -/
def joinColumns (chosen : List Datasource) (d : Datasource) : List (String × String) :=
  match joinPartner? chosen d with
  | none => []
  | some partner =>
    (shared partner d).filterMap fun concept =>
      match partner.columnFor? concept, d.columnFor? concept with
      | some left, some right =>
        some (columnRef (aliasFor partner) left.column, columnRef (aliasFor d) right.column)
      | _, _ => none

/-- Datasources chosen so far, the columns they give to concepts, and the sources
of the plan. The first column that a concept gets stays. -/
structure Choice where
  chosen : List Datasource := []
  bindings : Catalog String := .empty
  sources : List PlanSource := []
deriving Inhabited

def coverage (uncovered : List String) (d : Datasource) : Nat :=
  (uncovered.filter d.binds).length

def isCandidate (chosen : List Datasource) (uncovered : List String) (d : Datasource) : Bool :=
  !(chosen.any fun c => c.identifier = d.identifier) &&
    (chosen.isEmpty || (joinPartner? chosen d).isSome) &&
    coverage uncovered d != 0

/-- The first of the candidates that cover most. -/
def best? (uncovered : List String) : List Datasource → Option Datasource → Option Datasource
  | [], found => found
  | d :: rest, none => best? uncovered rest (some d)
  | d :: rest, some found =>
    if coverage uncovered found < coverage uncovered d then best? uncovered rest (some d)
    else best? uncovered rest (some found)

/-- The datasource to add to those chosen, if any will do. -/
def next? (env : Environment) (chosen : List Datasource) (uncovered : List String) :
    Option Datasource :=
  best? uncovered (env.datasources.values.filter (isCandidate chosen uncovered)) none

def bindColumns (d : Datasource) (bindings : Catalog String) : Catalog String :=
  d.columns.foldl (fun bindings b =>
    if bindings.contains b.concept then bindings
    else bindings.insert b.concept (columnRef (aliasFor d) b.column)) bindings

def Choice.add (choice : Choice) (d : Datasource) : Choice :=
  { chosen := choice.chosen ++ [d]
    bindings := bindColumns d choice.bindings
    sources := choice.sources ++
      [⟨d.address.text, aliasFor d, joinColumns choice.chosen d⟩] }

/-- Why no datasource can be added for a root. -/
def notCovered (env : Environment) (root : String) : RenderError :=
  match env.datasources.values.find? fun d => d.binds root with
  | some d => .noJoinPath d.identifier
  | none => .noDatasource root

/-- Chooses until every root is covered. Each choice covers another root, so
`fuel` is at most their number. -/
def cover (env : Environment) : (fuel : Nat) → Choice → List String → Except RenderError Choice
  | _, choice, [] => .ok choice
  | 0, choice, _ :: _ => .ok choice
  | fuel + 1, choice, first :: rest =>
    match next? env choice.chosen (first :: rest) with
    | some d => cover env fuel (choice.add d) ((first :: rest).filter fun c => !d.binds c)
    | none => .error (notCovered env first)

/-- The sources for some roots. A concept that has a column already keeps it. -/
def chooseSources (env : Environment) (bindings : Catalog String) (roots : List String) :
    Except RenderError Choice :=
  cover env roots.length { bindings } roots

end ConceptQuery.Plan
