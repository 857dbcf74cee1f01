import ConceptQuery.Proofs.Triple

/-! # Errors that point at a line

Whatever is wrong with a document itself, in a statement, an expression or a
declaration, is an error that names a line. Errors without a line come from its
imports: the module behind an import path is missing, does not parse, leads back to
itself, or has such an import in turn. This holds of any tree, whether the grammar made
it or not.
-/
namespace ConceptQuery

def CompileError.HasLine (e : CompileError) : Prop :=
  e.line?.isSome = true

namespace Compile

/-- A result that has a value or an error with a line. -/
abbrev Lined {α : Type} : Except CompileError α → Prop :=
  Ends (fun _ => True) CompileError.HasLine

/-- Likewise for what may have to wait. -/
abbrev LinedLater {α : Type} : Except Blocker α → Prop :=
  Ends (fun _ => True) fun b => b.error.HasLine

section Expressions
variable {α : Type} {env : Environment} {line : Nat}

theorem lined_need {rule message : String} (value : Option α) :
    Lined (need rule line message value) := by
  cases value with
  | some a => trivial
  | none => rfl

theorem lined_resolveNow (name : String) : Lined (resolveNow env name line) := by
  unfold resolveNow
  split
  · trivial
  · rfl

theorem lined_resolveLater (name : String) : LinedLater (resolveLater env name line) := by
  unfold resolveLater
  split
  · trivial
  · rfl

theorem Lined.orFail {x : Except CompileError α} (h : Lined x) : LinedLater (orFail x) :=
  Ends.orFail h

theorem lined_part {message : String} (value : Option α) : LinedLater (part line message value) :=
  (lined_need value).orFail

theorem lined_conceptExpr (node : Tree Leaf) : LinedLater (conceptExpr env line node) := by
  refine (lined_part _).bind fun leaf _ => ?_
  exact (lined_resolveLater leaf.text).bind fun _ _ => trivial

theorem lined_literalExpr (node : Tree Leaf) : LinedLater (literalExpr line node) := by
  refine (lined_part _).bind fun leaf _ => ?_
  exact (lined_part _).bind fun _ _ => trivial

theorem lined_typeExpr (node : Tree Leaf) : LinedLater (typeExpr line node) := by
  refine (lined_part _).bind fun leaf _ => ?_
  split
  · trivial
  · rfl

theorem lined_functionName (node : Tree Leaf) : LinedLater (functionName line node) := by
  refine (lined_part _).bind fun leaf _ => ?_
  split
  · trivial
  · rfl

theorem lined_binaryOp (node : Tree Leaf) : LinedLater (binaryOp line node) := by
  refine (lined_part _).bind fun leaf _ => ?_
  exact lined_part _

theorem lined_expr (t : Tree Leaf) : LinedLater (expr env t) := by
  induction t using expr_induction with
  | leaf leaf =>
    rw [expr]
    rfl
  | node kind children hnodes harguments =>
    have hnodes : ∀ x ∈ nodeExprs env children, LinedLater x := forall_nodeExprs hnodes
    have harguments : ∀ x ∈ argumentExprs env children, LinedLater x :=
      forall_argumentExprs harguments
    have hoperand : ∀ line i, LinedLater (operand line (nodeExprs env children) i) :=
      fun line i => operand_of_forall hnodes rfl i
    rw [expr.eq_def]
    dsimp only
    split
    · exact lined_conceptExpr _
    · exact lined_literalExpr _
    · exact lined_typeExpr _
    · refine (lined_functionName _).bind fun function _ => ?_
      exact (ends_inSequence harguments).bind fun _ _ => trivial
    · exact (hoperand _ 0).bind fun _ _ => trivial
    · refine (lined_binaryOp _).bind fun op _ => ?_
      refine (hoperand _ 0).bind fun lhs _ => ?_
      exact (hoperand _ 1).bind fun _ _ => trivial
    · exact (hoperand _ 0).bind fun _ _ => trivial
    · exact (hoperand _ 0).bind fun _ _ => trivial
    · refine (hoperand _ 0).bind fun first _ => ?_
      have htail : ∀ x ∈ (nodeExprs env children).tail, LinedLater x :=
        fun x hx => hnodes x (List.mem_of_mem_tail hx)
      exact (ends_inSequence htail).bind fun _ _ => trivial
    · rfl

theorem lined_exprNow (node : Tree Leaf) : Lined (exprNow env node) :=
  Ends.mapError (lined_expr node)

end Expressions

section Declarations
variable {env : Environment} {lines : List (List Char)}

theorem lined_purposeOf (node : Tree Leaf) : Lined (purposeOf node) := by
  refine (lined_need _).bind fun keyword _ => ?_
  exact lined_need _

theorem lined_datatypeOf (node : Tree Leaf) : Lined (datatypeOf node) := by
  refine (lined_need _).bind fun leaf _ => ?_
  split
  · trivial
  · rfl

theorem lined_declaredConcept (node : Tree Leaf) : Lined (declaredConcept lines env node) := by
  refine (lined_purposeOf node).bind fun purpose _ => ?_
  refine (lined_need _).bind fun name _ => ?_
  exact (lined_datatypeOf node).bind fun _ _ => trivial

theorem lined_propertyConcept (node : Tree Leaf) (purpose : Purpose) (name : Leaf) :
    LinedLater (propertyConcept env node purpose name) := by
  refine (lined_need _).orFail.bind fun ⟨parent, short⟩ _ => ?_
  refine (lined_resolveLater parent).bind fun address _ => ?_
  exact (lined_datatypeOf node).orFail.bind fun _ _ => trivial

theorem lined_lineageConcept (node : Tree Leaf) (purpose : Purpose) (name : Leaf) :
    LinedLater (lineageConcept env node purpose name) := by
  refine (lined_need _).orFail.bind fun lineageNode _ => ?_
  exact (lined_expr lineageNode).bind fun _ _ => trivial

theorem lined_derivedConcept (node : Tree Leaf) : LinedLater (derivedConcept lines env node) := by
  refine (lined_purposeOf node).orFail.bind fun purpose _ => ?_
  refine (lined_need _).orFail.bind fun name _ => ?_
  dsimp only
  split
  · exact (lined_propertyConcept node purpose name).bind fun _ _ => trivial
  · exact (lined_lineageConcept node purpose name).bind fun _ _ => trivial

theorem lined_addConcept (c : Concept) (line : Nat) : Lined (env.addConcept c line) := by
  unfold Environment.addConcept
  split
  · split
    · trivial
    · rfl
  · trivial

theorem lined_addDatasource (d : Datasource) (line : Nat) : Lined (env.addDatasource d line) := by
  unfold Environment.addDatasource
  split
  · rfl
  · trivial

end Declarations

section Clauses
variable {env : Environment} {line : Nat}

theorem lined_columnsOf (raw : Option String) (columns : List (Tree Leaf)) :
    Lined (columnsOf env line raw columns) := by
  induction columns generalizing raw with
  | nil => trivial
  | cons c columns ih =>
    cases c with
    | node kind children =>
      rw [columnsOf]
      split
      · exact ih _
      · exact ih _
    | leaf leaf =>
      rw [columnsOf]
      split
      · refine (lined_resolveNow leaf.text).bind fun concept _ => ?_
        exact (ih none).bind fun _ _ => trivial
      · exact ih _

theorem lined_resolveLeaves (leaves : List Leaf) : Lined (resolveLeaves env line leaves) := by
  apply ends_inSequence
  intro x hx
  obtain ⟨leaf, -, rfl⟩ := List.mem_map.mp hx
  exact lined_resolveNow leaf.text

theorem lined_sourceAddress (node : Tree Leaf) : Lined (sourceAddress node line) := by
  unfold sourceAddress
  split
  · exact (lined_need _).bind fun _ _ => trivial
  · exact (lined_need _).bind fun _ _ => trivial
  · rfl

theorem lined_datasourceOf (node : Tree Leaf) : Lined (datasourceOf env node) := by
  have hlast : ∀ (name : Leaf) (columns : List ColumnBinding) (grain : List String), Lined (do
      let address ← sourceAddress node (lineOf node)
      return ({ name := name.text, space := env.space, columns, grain, address,
                isRoot := node.hasKeyword "root" } : Datasource)) :=
    fun name columns grain => (lined_sourceAddress node).bind fun _ _ => trivial
  refine (lined_need _).bind fun name _ => ?_
  dsimp only
  split
  · refine (lined_columnsOf none _).bind fun columns _ => ?_
    split
    · exact (lined_resolveLeaves _).bind fun grain _ => hlast name columns grain
    · exact hlast name columns []
  · split
    · exact (lined_resolveLeaves _).bind fun grain _ => hlast name [] grain
    · exact hlast name [] []

theorem lined_transformedConcept (node : Tree Leaf) : Lined (transformedConcept env node) := by
  refine (lined_need _).bind fun exprNode _ => ?_
  refine (lined_need _).bind fun name _ => ?_
  exact (lined_exprNow exprNode).bind fun _ _ => trivial

theorem lined_conditionOf (node : Tree Leaf) : Lined (conditionOf env node) := by
  unfold conditionOf
  split
  · exact Ends.map (lined_exprNow _)
  · trivial

theorem lined_orderItem (item : Tree Leaf) : Lined (orderItem env line item) := by
  refine (lined_need _).bind fun exprNode _ => ?_
  exact (lined_exprNow exprNode).bind fun _ _ => trivial

theorem lined_orderingOf (node : Tree Leaf) : Lined (orderingOf env line node) := by
  unfold orderingOf
  split
  · apply ends_inSequence
    intro x hx
    obtain ⟨item, -, rfl⟩ := List.mem_map.mp hx
    exact lined_orderItem item
  · trivial

theorem lined_limitOf (node : Tree Leaf) : Lined (limitOf line node) := by
  unfold limitOf
  split
  · refine (lined_need _).bind fun leaf _ => ?_
    split
    · trivial
    · rfl
  · trivial

theorem lined_alignItem (count : Nat) (item : Tree Leaf) :
    Lined (alignItem env line count item) := by
  refine (lined_need _).bind fun name _ => ?_
  refine (lined_resolveLeaves _).bind fun concepts _ => ?_
  split
  · trivial
  · rfl

theorem lined_alignment (count : Nat) (node : Tree Leaf) :
    Lined (alignment env line count node) := by
  unfold alignment
  split
  · apply ends_inSequence
    intro x hx
    obtain ⟨item, -, rfl⟩ := List.mem_map.mp hx
    exact lined_alignItem count item
  · trivial

end Clauses

section Statements
variable {α β : Type} {line : Nat}

/-- A step that succeeds, or fails with an error that has a line. -/
abbrev Build.Lined (step : Build α) : Prop :=
  Build.Ensures (fun _ => True) step (fun _ _ => True) CompileError.HasLine

theorem Build.lined_bind {step : Build α} {next : α → Build β} (h : Build.Lined step)
    (hnext : ∀ a, Build.Lined (next a)) : Build.Lined (step >>= next) :=
  h.bind hnext

theorem Build.lined_pure (a : α) : Build.Lined (pure a) :=
  Build.ensures_pure fun _ _ => trivial

theorem Build.lined_lift {result : Environment → Except CompileError α}
    (h : ∀ env, Compile.Lined (result env)) : Build.Lined (Build.lift result) :=
  Build.ensures_lift fun env _ => h env

theorem Build.lined_change {result : Environment → Except CompileError Environment}
    (h : ∀ env, Compile.Lined (result env)) : Build.Lined (Build.change result) :=
  Build.ensures_change fun env _ => h env

theorem lined_register (c : Concept) : Build.Lined (register c line) := by
  refine Build.lined_bind (Build.lined_change fun env => lined_addConcept c line) fun _ => ?_
  split
  · exact Build.lined_change fun env => lined_addConcept _ line
  · exact Build.lined_pure _

theorem lined_absorb (module : Environment) (space : String) :
    Build.Lined (absorb module space line) := by
  refine Build.lined_bind ?_ fun _ => ?_
  · exact Build.ensures_forM fun c _ => Build.lined_change fun env => lined_addConcept _ line
  · exact Build.ensures_forM fun d _ => Build.lined_change fun env => lined_addDatasource _ line

theorem lined_datasource (node : Tree Leaf) : Build.Lined (datasource node) := by
  refine Build.lined_bind (Build.lined_lift fun env => lined_datasourceOf node) fun d => ?_
  refine Build.lined_bind (Build.lined_change fun env => lined_addDatasource d _) fun _ => ?_
  exact Build.lined_pure _

theorem lined_selectItem (item : Tree Leaf) : Build.Lined (selectItem line item) := by
  unfold selectItem
  dsimp only
  split
  · refine Build.lined_bind (Build.lined_lift fun env => ?_) fun _ => Build.lined_pure _
    exact (lined_need _).bind fun leaf _ => lined_resolveNow leaf.text
  · rename_i transform _ _
    refine Build.lined_bind (Build.lined_lift fun env => lined_transformedConcept transform) fun c => ?_
    exact Build.lined_bind (lined_register c) fun _ => Build.lined_pure _
  · exact Build.ensures_throw rfl

theorem lined_select (node : Tree Leaf) : Build.Lined (select node) := by
  refine Build.lined_bind ?_ fun items => ?_
  · rw [selectItems_eq_mapM]
    exact Build.ensures_mapM fun item _ => lined_selectItem item
  refine Build.lined_bind (Build.lined_lift fun env => lined_conditionOf node) fun condition => ?_
  refine Build.lined_bind (Build.lined_lift fun env => lined_orderingOf node) fun orderBy => ?_
  exact Build.lined_bind (Build.lined_lift fun env => lined_limitOf node) fun _ => Build.lined_pure _

theorem lined_query (node : Tree Leaf) : Build.Lined (query node) := by
  unfold query
  split
  · exact (lined_select node).map
  · refine Build.lined_bind ?_ fun parts => ?_
    · rw [selects_eq_mapM]
      exact Build.ensures_mapM fun part _ => lined_select part
    exact Build.lined_bind (Build.lined_lift fun env => lined_alignment _ node)
      fun _ => Build.lined_pure _
  · refine Build.lined_bind (Build.lined_lift fun env => ?_) fun ⟨target, table, selectNode⟩ => ?_
    · refine (lined_need _).bind fun target _ => ?_
      refine (lined_need _).bind fun table _ => ?_
      exact (lined_need _).bind fun _ _ => trivial
    exact Build.lined_bind (lined_select selectNode) fun _ => Build.lined_pure _
  · exact Build.ensures_throw rfl

theorem lined_tryConcept (lines : List (List Char)) (node : Tree Leaf) :
    Build.Lined (tryConcept lines node) := by
  refine Build.ensures_get.bind fun env => ?_
  have hconcept : LinedLater (derivedConcept lines env node) := lined_derivedConcept node
  cases hresult : derivedConcept lines env node with
  | ok c =>
    intro found _
    exact Build.lined_bind (lined_register c) (fun _ => Build.lined_pure _) found trivial
  | error blocker =>
    rw [hresult] at hconcept
    cases blocker with
    | unresolved name line => exact Build.ensures_pure fun _ _ => trivial
    | failed e => exact Build.ensures_throw hconcept

theorem lined_rawSql (node : Tree Leaf) : Compile.Lined (rawSql node) :=
  (lined_need _).bind fun _ _ => trivial

section SecondPass
variable {lines : List (List Char)}

theorem lined_sweep (slots : List Slot) : Build.Lined (sweep lines slots) := by
  induction slots with
  | nil => exact Build.lined_pure _
  | cons slot slots ih =>
    cases slot with
    | ready statement => exact Build.lined_bind ih fun _ => Build.lined_pure _
    | pending node =>
      rw [sweep]
      split
      · refine Build.lined_bind (lined_tryConcept lines node) fun result => ?_
        cases result with
        | ok statement => exact Build.lined_bind ih fun _ => Build.lined_pure _
        | error name => exact Build.lined_bind ih fun _ => Build.lined_pure _
      · exact Build.lined_bind ih fun _ => Build.lined_pure _

theorem lined_resolvePending (fuel : Nat) (slots : List Slot) :
    Build.Lined (resolvePending lines fuel slots) := by
  induction fuel generalizing slots with
  | zero => exact Build.lined_pure slots
  | succ fuel ih =>
    refine Build.lined_bind (lined_sweep slots) fun round => ?_
    split
    · exact Build.lined_pure _
    · split
      · exact ih _
      · exact Build.ensures_throw rfl

theorem lined_bindDatasources (slots : List Slot) : Build.Lined (bindDatasources slots) := by
  induction slots with
  | nil => exact Build.lined_pure _
  | cons slot slots ih =>
    have hmore : ∀ slot, Build.Lined (do return slot :: (← bindDatasources slots)) :=
      fun slot => Build.lined_bind ih fun _ => Build.lined_pure _
    cases slot with
    | ready statement => exact hmore _
    | pending node =>
      rw [bindDatasources]
      dsimp only
      split
      · exact Build.lined_bind (lined_datasource node).map hmore
      · exact Build.lined_bind (Build.lined_pure _) hmore

theorem lined_finish (slots : List Slot) : Build.Lined (finish slots) := by
  induction slots with
  | nil => exact Build.lined_pure _
  | cons slot slots ih =>
    cases slot with
    | ready statement => exact Build.lined_bind ih fun _ => Build.lined_pure _
    | pending node =>
      refine Build.lined_bind (lined_query node) fun statement => ?_
      exact Build.lined_bind ih fun _ => Build.lined_pure _

/-- The second pass imports nothing, so all its errors have a line. -/
theorem lined_secondPass (lines : List (List Char)) (slots : List Slot) :
    Build.Lined (secondPass lines slots) := by
  refine Build.lined_bind (lined_resolvePending _ _) fun slots => ?_
  exact Build.lined_bind (lined_bindDatasources slots) fun slots => lined_finish slots

end SecondPass

end Statements
end Compile
end ConceptQuery
