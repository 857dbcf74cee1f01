import ConceptQuery.Proofs.Mentions
import ConceptQuery.Proofs.Triple

/-! # Compiled parts mention known concepts only

Resolving a name gives the address of a concept that the environment has. Hence
whatever is compiled from names, an expression, a concept, a datasource or a
clause of a select, mentions only concepts that the environment has at that time.
-/
namespace ConceptQuery

/-- The environment has a concept with this address. -/
def Environment.Knows (env : Environment) (address : String) : Prop :=
  address ∈ env.concepts.keys

namespace Environment
variable {env : Environment} {name address : String}

theorem knows_iff_contains : env.Knows address ↔ env.concepts.contains address = true :=
  Catalog.contains_iff.symm

theorem knows_of_concept? {c : Concept} (h : env.concept? address = some c) : env.Knows address :=
  Catalog.mem_keys_of_mem (Catalog.mem_entries_of_get? h)

theorem concept?_eq_none_iff : env.concept? address = none ↔ ¬ env.Knows address :=
  Catalog.get?_eq_none_iff

theorem knows_of_propertyOf? {parent : String} (h : env.propertyOf? parent name = some address) :
    env.Knows address := by
  unfold propertyOf? at h
  dsimp only at h
  split at h
  · rename_i keys hkeys
    obtain ⟨c, hc, -⟩ := Option.bind_eq_some_iff.mp hkeys
    split at h
    · rw [← Option.some.inj h]
      exact knows_of_concept? hc
    · cases h
  · cases h

theorem knows_of_resolveSegments? {segments : List String}
    (h : env.resolveSegments? segments = some address) : env.Knows address := by
  cases segments with
  | nil => cases h
  | cons last parents =>
    rw [resolveSegments?] at h
    split at h
    · rename_i hraw
      rw [← Option.some.inj h]
      exact knows_iff_contains.mpr hraw
    · split at h
      · rename_i hown
        rw [← Option.some.inj h]
        exact knows_iff_contains.mpr hown
      · split at h
        · exact knows_of_propertyOf? h
        · cases h

theorem knows_of_resolve? (h : env.resolve? name = some address) : env.Knows address :=
  knows_of_resolveSegments? h

/-- Nothing is mentioned but what the environment has. -/
def KnowsAll (env : Environment) (addresses : List String) : Prop :=
  ∀ a ∈ addresses, env.Knows a

theorem knowsAll_append {xs ys : List String} :
    env.KnowsAll (xs ++ ys) ↔ env.KnowsAll xs ∧ env.KnowsAll ys :=
  List.forall_mem_append

end Environment

namespace Compile
open Environment
variable {env : Environment} {line : Nat}

/-- If there is a value, it has this property. -/
abbrev Yields {ε α : Type} (good : α → Prop) : Except ε α → Prop :=
  Ends good fun _ => True

theorem known_resolveLater (name : String) : Yields env.Knows (resolveLater env name line) := by
  apply ends_of_ok
  intro a h
  unfold resolveLater at h
  split at h
  · rename_i found hfound
    rw [← Except.ok.inj h]
    exact knows_of_resolve? hfound
  · cases h

theorem known_resolveNow (name : String) : Yields env.Knows (resolveNow env name line) := by
  apply ends_of_ok
  intro a h
  unfold resolveNow at h
  split at h
  · rename_i found hfound
    rw [← Except.ok.inj h]
    exact knows_of_resolve? hfound
  · cases h

section Expressions

/-- An expression over known concepts, if there is one. -/
abbrev Closed {ε : Type} (env : Environment) : Except ε Expr → Prop :=
  Yields fun e => env.KnowsAll e.mentions

theorem closed_inSequence {xs : List (Except Blocker Expr)} (h : ∀ x ∈ xs, Closed env x) :
    Yields (fun es => env.KnowsAll (Expr.mentionsAll es)) (inSequence xs) := by
  refine (Ends.inSequence h).weaken (fun es hes a ha => ?_) (fun _ h => h)
  obtain ⟨e, he, hmem⟩ := Expr.mem_mentionsAll.mp ha
  exact hes e he a hmem

theorem closed_conceptExpr (node : Tree Leaf) : Closed env (conceptExpr env line node) := by
  refine (ends_trivial _).bind fun leaf _ => ?_
  refine (known_resolveLater leaf.text).bind fun address haddress => ?_
  intro a ha
  rw [Expr.mentions, List.mem_singleton] at ha
  rw [ha]
  exact haddress

theorem closed_literalExpr (node : Tree Leaf) : Closed env (literalExpr line node) := by
  refine (ends_trivial _).bind fun leaf _ => ?_
  refine (ends_trivial _).bind fun value _ => ?_
  simp [Ends, pure, Except.pure, KnowsAll, Expr.mentions]

theorem closed_typeExpr (node : Tree Leaf) : Closed env (typeExpr line node) := by
  refine (ends_trivial _).bind fun leaf _ => ?_
  split
  · simp [Ends, pure, Except.pure, KnowsAll, Expr.mentions]
  · trivial

/-- Every expression mentions known concepts only. -/
theorem closed_expr (t : Tree Leaf) : Closed env (expr env t) := by
  induction t using expr_induction with
  | leaf leaf =>
    rw [expr]
    trivial
  | node kind children hnodes harguments =>
    have hnodes : ∀ x ∈ nodeExprs env children, Closed env x := forall_nodeExprs hnodes
    have harguments : ∀ x ∈ argumentExprs env children, Closed env x :=
      forall_argumentExprs harguments
    have hoperand : ∀ line i, Closed env (operand line (nodeExprs env children) i) :=
      fun line i => operand_of_forall hnodes trivial i
    rw [expr.eq_def]
    dsimp only
    split
    · exact closed_conceptExpr _
    · exact closed_literalExpr _
    · exact closed_typeExpr _
    · refine (ends_trivial _).bind fun function _ => ?_
      refine (closed_inSequence harguments).bind fun arguments h => ?_
      exact h
    · refine (hoperand _ 0).bind fun inner h => ?_
      exact h
    · refine (ends_trivial _).bind fun op _ => ?_
      refine (hoperand _ 0).bind fun lhs hlhs => ?_
      refine (hoperand _ 1).bind fun rhs hrhs => ?_
      exact knowsAll_append.mpr ⟨hlhs, hrhs⟩
    · refine (hoperand _ 0).bind fun inner h => ?_
      exact h
    · refine (hoperand _ 0).bind fun inner h => ?_
      exact h
    · refine (hoperand _ 0).bind fun first hfirst => ?_
      have htail : ∀ x ∈ (nodeExprs env children).tail, Closed env x :=
        fun x hx => hnodes x (List.mem_of_mem_tail hx)
      refine (closed_inSequence htail).bind fun items hitems => ?_
      exact knowsAll_append.mpr ⟨hfirst, hitems⟩
    · trivial

theorem closed_exprNow (node : Tree Leaf) : Closed env (exprNow env node) :=
  Ends.mapError (closed_expr node)

end Expressions

section Concepts

/-- A concept of the document itself that mentions known concepts only, and counts as what
its lineage is. -/
structure Own (env : Environment) (c : Concept) : Prop where
  space : c.space = env.space
  known : env.KnowsAll c.mentions
  classified : c.Classified

theorem own_described {lines : List (List Char)} {node : Tree Leaf} {c : Concept}
    (h : Own env c) : Own env (described lines node c) :=
  ⟨h.space, h.known, h.classified⟩

theorem own_derived {name : String} {purpose : Purpose} {datatype : DataType} {lineage : Expr}
    (h : env.KnowsAll lineage.mentions) :
    Own env (Concept.derived name env.space purpose datatype lineage) :=
  ⟨rfl, knowsAll_append.mpr ⟨h, by simp [KnowsAll, Concept.derived]⟩,
    Concept.classified_derived rfl rfl⟩

theorem own_declaredConcept (lines : List (List Char)) (node : Tree Leaf) :
    Yields (Own env) (declaredConcept lines env node) := by
  refine (ends_trivial _).bind fun purpose _ => ?_
  refine (ends_trivial _).bind fun name _ => ?_
  refine (ends_trivial _).bind fun datatype _ => ?_
  exact own_described ⟨rfl, by simp [KnowsAll, Concept.mentions, Concept.uses],
    Concept.classified_declared rfl rfl⟩

theorem own_propertyConcept (node : Tree Leaf) (purpose : Purpose) (name : Leaf) :
    Yields (Own env) (propertyConcept env node purpose name) := by
  refine (ends_trivial _).bind fun ⟨parent, short⟩ _ => ?_
  refine (known_resolveLater parent).bind fun address haddress => ?_
  refine (ends_trivial _).bind fun datatype _ => ?_
  refine ⟨rfl, ?_, Concept.classified_declared rfl rfl⟩
  simpa [KnowsAll, Concept.mentions, Concept.uses] using haddress

theorem mem_keysOf {lineage : Expr} {a : String} (h : a ∈ (keysOf env lineage).getD []) :
    a ∈ lineage.mentions := by
  unfold keysOf at h
  dsimp only at h
  split at h
  · cases h
  · exact Expr.mem_concepts.mp (List.mem_of_mem_filter h)

theorem own_lineageConcept (node : Tree Leaf) (purpose : Purpose) (name : Leaf) :
    Yields (Own env) (lineageConcept env node purpose name) := by
  refine (ends_trivial _).bind fun lineageNode _ => ?_
  refine (closed_expr lineageNode).bind fun lineage hlineage => ?_
  dsimp only
  split
  · refine ⟨rfl, knowsAll_append.mpr ⟨hlineage, ?_⟩, Concept.classified_derived rfl rfl⟩
    intro a ha
    exact hlineage a (mem_keysOf ha)
  · exact own_derived hlineage

theorem own_derivedConcept (lines : List (List Char)) (node : Tree Leaf) :
    Yields (Own env) (derivedConcept lines env node) := by
  refine (ends_trivial _).bind fun purpose _ => ?_
  refine (ends_trivial _).bind fun name _ => ?_
  dsimp only
  split
  · exact (own_propertyConcept node purpose name).bind fun c hc => own_described hc
  · exact (own_lineageConcept node purpose name).bind fun c hc => own_described hc

theorem own_transformedConcept (node : Tree Leaf) :
    Yields (Own env) (transformedConcept env node) := by
  refine (ends_trivial _).bind fun exprNode _ => ?_
  refine (ends_trivial _).bind fun name _ => ?_
  refine (closed_exprNow exprNode).bind fun lineage hlineage => ?_
  refine ⟨rfl, knowsAll_append.mpr ⟨hlineage, ?_⟩, Concept.classified_derived rfl rfl⟩
  intro a ha
  cases ha

end Concepts

section Clauses

theorem known_resolveLeaves (leaves : List Leaf) :
    Yields env.KnowsAll (resolveLeaves env line leaves) := by
  apply Ends.inSequence
  intro x hx
  obtain ⟨leaf, -, rfl⟩ := List.mem_map.mp hx
  exact known_resolveNow leaf.text

theorem known_columnsOf (raw : Option String) (columns : List (Tree Leaf)) :
    Yields (fun bindings => env.KnowsAll (bindings.map ColumnBinding.concept))
      (columnsOf env line raw columns) := by
  induction columns generalizing raw with
  | nil => simp [columnsOf, Ends, KnowsAll]
  | cons c columns ih =>
    cases c with
    | node kind children =>
      rw [columnsOf]
      split
      · exact ih _
      · exact ih _
    | leaf leaf =>
      rw [columnsOf]
      split
      · refine (known_resolveNow leaf.text).bind fun concept hconcept => ?_
        refine (ih none).bind fun more hmore => ?_
        intro a ha
        rcases List.mem_cons.mp ha with rfl | ha
        · exact hconcept
        · exact hmore a ha
      · exact ih _

theorem known_datasourceOf (node : Tree Leaf) :
    Yields (fun d => env.KnowsAll d.mentions) (datasourceOf env node) := by
  have hrest : ∀ (name : Leaf) (columns : List ColumnBinding) (grain : List String),
      env.KnowsAll (columns.map ColumnBinding.concept) → env.KnowsAll grain →
      Yields (fun d : Datasource => env.KnowsAll d.mentions) (do
        let address ← sourceAddress node (lineOf node)
        return { name := name.text, space := env.space, columns, grain, address,
                 isRoot := node.hasKeyword "root" }) := by
    intro name columns grain hcolumns hgrain
    refine (ends_trivial _).bind fun address _ => ?_
    exact knowsAll_append.mpr ⟨hcolumns, hgrain⟩
  have hnone : ∀ α : Type, Yields (fun as : List α => as = []) (pure [] : Except CompileError _) :=
    fun _ => rfl
  refine (ends_trivial _).bind fun name _ => ?_
  dsimp only
  split
  · refine (known_columnsOf none _).bind fun columns hcolumns => ?_
    split
    · exact (known_resolveLeaves _).bind fun grain hgrain => hrest name columns grain hcolumns hgrain
    · refine (hnone String).bind fun grain hgrain => hrest name columns grain hcolumns ?_
      simp [hgrain, KnowsAll]
  · refine (hnone ColumnBinding).bind fun columns hcolumns => ?_
    have hempty : env.KnowsAll (columns.map ColumnBinding.concept) := by simp [hcolumns, KnowsAll]
    split
    · exact (known_resolveLeaves _).bind fun grain hgrain => hrest name columns grain hempty hgrain
    · refine (hnone String).bind fun grain hgrain => hrest name columns grain hempty ?_
      simp [hgrain, KnowsAll]

theorem closed_conditionOf (node : Tree Leaf) :
    Yields (fun condition => env.KnowsAll (condition.toList.flatMap Expr.mentions))
      (conditionOf env node) := by
  unfold conditionOf
  split
  · apply Ends.map
    refine (closed_exprNow _).weaken (fun e he => ?_) (fun _ h => h)
    simpa using he
  · simp [Ends, KnowsAll]

theorem closed_orderItem (item : Tree Leaf) :
    Yields (fun i => env.KnowsAll (OrderItem.expr i).mentions) (orderItem env line item) := by
  refine (ends_trivial _).bind fun exprNode _ => ?_
  exact (closed_exprNow exprNode).bind fun e he => he

theorem closed_orderingOf (node : Tree Leaf) :
    Yields (fun items => env.KnowsAll ((items.map OrderItem.expr).flatMap Expr.mentions))
      (orderingOf env line node) := by
  unfold orderingOf
  split
  · rename_i clause _
    have hitems : ∀ x ∈ clause.nodes.map (orderItem env line),
        Yields (fun i => env.KnowsAll (OrderItem.expr i).mentions) x := by
      intro x hx
      obtain ⟨item, -, rfl⟩ := List.mem_map.mp hx
      exact closed_orderItem item
    refine (Ends.inSequence hitems).weaken (fun items h a ha => ?_) (fun _ h => h)
    obtain ⟨e, he, hmem⟩ := List.mem_flatMap.mp ha
    obtain ⟨i, hi, rfl⟩ := List.mem_map.mp he
    exact h i hi a hmem
  · simp [Ends, KnowsAll]

theorem known_alignItem (count : Nat) (item : Tree Leaf) :
    Yields (fun i => env.KnowsAll (AlignItem.concepts i)) (alignItem env line count item) := by
  refine (ends_trivial _).bind fun name _ => ?_
  refine (known_resolveLeaves _).bind fun concepts hconcepts => ?_
  split
  · exact hconcepts
  · trivial

theorem known_alignment (count : Nat) (node : Tree Leaf) :
    Yields (fun items => env.KnowsAll (items.flatMap AlignItem.concepts))
      (alignment env line count node) := by
  unfold alignment
  split
  · rename_i clause _
    have hitems : ∀ x ∈ clause.nodes.map (alignItem env line count),
        Yields (fun i => env.KnowsAll (AlignItem.concepts i)) x := by
      intro x hx
      obtain ⟨item, -, rfl⟩ := List.mem_map.mp hx
      exact known_alignItem count item
    refine (Ends.inSequence hitems).weaken (fun items h a ha => ?_) (fun _ h => h)
    obtain ⟨i, hi, hmem⟩ := List.mem_flatMap.mp ha
    exact h i hi a hmem
  · simp [Ends, KnowsAll]

end Clauses
end Compile
end ConceptQuery
