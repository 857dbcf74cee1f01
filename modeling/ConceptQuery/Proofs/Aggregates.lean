import ConceptQuery.Plan.Render
import ConceptQuery.Proofs.Independence
import ConceptQuery.Proofs.Strays

/-! # What aggregates rows

An expression aggregates if it calls an aggregate function, or if the lineage of a
concept that it mentions does, and so on; what is read from a source is a plain column,
whatever its lineage. The planner answers this by following lineages up to a bound, and
trusts what a concept counts as. In environments that compiling made concepts count as
what their lineages are; and wherever an expression has a text, the bound was not met.
-/
namespace ConceptQuery

namespace Environment

/-- Every concept counts as what its lineage is. -/
def Classified (env : Environment) : Prop :=
  ∀ c ∈ env.concepts.values, c.Classified

variable {importer : Compile.Importer} {env env' : Environment}

theorem classified_initial : Classified initial := by
  intro c hc
  obtain rfl : c = allRows := by simpa [Catalog.values, initial] using hc
  exact Concept.classified_derived rfl rfl

theorem Classified.withConcept {c : Concept} (h : env.Classified) (hnew : ¬ env.Knows c.address)
    (hc : c.Classified) : (env.withConcept c).Classified := by
  intro e he
  have hvalues : (env.withConcept c).concepts.values = env.concepts.values ++ [c] :=
    Catalog.values_insert hnew
  rw [hvalues] at he
  rcases List.mem_append.mp he with hold | hlast
  · exact h e hold
  · obtain rfl := List.mem_singleton.mp hlast
    exact hc

theorem Step.classified (h : Step importer env env')
    (hmodules : ∀ path module, importer path = .ok module → module.Classified)
    (hc : env.Classified) : env'.Classified := by
  cases h with
  | concept hnew hown => exact hc.withConcept hnew hown.classified
  | @moved path module space front c back himport hsplit hfront hnew =>
    have huser : c ∈ module.userConcepts := by simp [hsplit]
    have hmember : c ∈ module.concepts.values := (mem_userConcepts_iff.mp huser).1
    exact hc.withConcept hnew (hmodules path module himport c hmember).moved
  | datasource hnew hknown => exact hc
  | movedDatasource himport hmem hall hnew => exact hc
  | imported => exact hc

theorem Steps.classified (h : Steps importer initial env)
    (hmodules : ∀ path module, importer path = .ok module → module.Classified) :
    env.Classified := by
  induction h with
  | refl => exact classified_initial
  | tail _ hstep ih => exact hstep.classified hmodules ih

theorem classified_compileModule {load : Compile.Loader} {depth : Nat} {stack : List String}
    {path : String} {module : Environment}
    (h : Compile.compileModule load depth stack path = .ok module) : module.Classified := by
  induction depth generalizing stack path module with
  | zero =>
    rw [Compile.compileModule] at h
    split at h
    · cases h
    · cases h
  | succ depth ih =>
    rw [Compile.compileModule] at h
    split at h
    · cases h
    · exact Steps.classified (Compile.steps_of_compileText h) fun _ _ => ih

end Environment

namespace Plan

section Texts
variable {call : CallWriter} {f : String → Except RenderError String}

mutual
/-- An expression has a text only if all that it mentions has one. -/
theorem ok_of_exprSql (e : Expr) {sql : String} (h : exprSql call f e = .ok sql) :
    ∀ a ∈ e.mentions, ∃ text, f a = .ok text := by
  cases e with
  | concept address =>
    intro a ha
    obtain rfl := List.mem_singleton.mp ha
    exact ⟨sql, h⟩
  | literal value => exact fun a ha => by cases ha
  | type datatype => exact fun a ha => by cases ha
  | call function arguments =>
    rw [exprSql] at h
    obtain ⟨texts, htexts, -⟩ := except_bind_eq_ok.mp h
    exact ok_of_exprSqls arguments htexts
  | binary op lhs rhs =>
    rw [exprSql] at h
    obtain ⟨left, hleft, h⟩ := except_bind_eq_ok.mp h
    obtain ⟨right, hright, -⟩ := except_bind_eq_ok.mp h
    exact List.forall_mem_append.mpr ⟨ok_of_exprSql lhs hleft, ok_of_exprSql rhs hright⟩
  | unary op operand =>
    cases op with
    | not =>
      rw [exprSql] at h
      obtain ⟨text, htext, -⟩ := except_bind_eq_ok.mp h
      exact ok_of_exprSql operand htext
    | neg =>
      rw [exprSql] at h
      obtain ⟨text, htext, -⟩ := except_bind_eq_ok.mp h
      exact ok_of_exprSql operand htext
  | isNull operand negated =>
    rw [exprSql] at h
    obtain ⟨text, htext, -⟩ := except_bind_eq_ok.mp h
    exact ok_of_exprSql operand htext
  | inList operand items negated =>
    rw [exprSql] at h
    obtain ⟨texts, htexts, h⟩ := except_bind_eq_ok.mp h
    obtain ⟨text, htext, -⟩ := except_bind_eq_ok.mp h
    exact List.forall_mem_append.mpr ⟨ok_of_exprSql operand htext, ok_of_exprSqls items htexts⟩
  | paren inner =>
    rw [exprSql] at h
    obtain ⟨text, htext, -⟩ := except_bind_eq_ok.mp h
    exact ok_of_exprSql inner htext

theorem ok_of_exprSqls (es : List Expr) {sqls : List String} (h : exprSqls call f es = .ok sqls) :
    ∀ a ∈ Expr.mentionsAll es, ∃ text, f a = .ok text := by
  cases es with
  | nil => exact fun a ha => by cases ha
  | cons e es =>
    rw [exprSqls] at h
    obtain ⟨first, hfirst, h⟩ := except_bind_eq_ok.mp h
    obtain ⟨more, hmore, -⟩ := except_bind_eq_ok.mp h
    exact List.forall_mem_append.mpr ⟨ok_of_exprSql e hfirst, ok_of_exprSqls es hmore⟩
end

end Texts

namespace Scope
variable {scope : Scope} {e : Expr} {a sql : String}

/-- An aggregate function is called in the expression, or in the lineage of a concept that
it mentions and that is not read from a source. -/
inductive Aggregates (scope : Scope) : Expr → Prop where
  | called {e : Expr} (h : e.hasAggregate = true) : Aggregates scope e
  | inherited {e : Expr} {a : String} {c : Concept} {lineage : Expr} (hmention : a ∈ e.mentions)
      (hfree : scope.bindings.get? a = none) (hconcept : scope.env.concept? a = some c)
      (hlineage : c.lineage = some lineage) (h : Aggregates scope lineage) : Aggregates scope e

theorem aggregates_concept_iff : scope.Aggregates (.concept a) ↔
    scope.bindings.get? a = none ∧ ∃ c lineage, scope.env.concept? a = some c ∧
      c.lineage = some lineage ∧ scope.Aggregates lineage := by
  constructor
  · intro h
    cases h with
    | called h => cases h
    | inherited hmention hfree hconcept hlineage h =>
      obtain rfl := List.mem_singleton.mp hmention
      exact ⟨hfree, _, _, hconcept, hlineage, h⟩
  · rintro ⟨hfree, c, lineage, hconcept, hlineage, h⟩
    exact .inherited (List.mem_singleton.mpr rfl) hfree hconcept hlineage h

theorem aggregates_iff : scope.Aggregates e ↔
    e.hasAggregate = true ∨ ∃ a ∈ e.mentions, scope.Aggregates (.concept a) := by
  simp only [aggregates_concept_iff]
  constructor
  · intro h
    cases h with
    | called h => exact .inl h
    | inherited hmention hfree hconcept hlineage h =>
      exact .inr ⟨_, hmention, hfree, _, _, hconcept, hlineage, h⟩
  · rintro (h | ⟨a, hmention, hfree, c, lineage, hconcept, hlineage, h⟩)
    · exact .called h
    · exact .inherited hmention hfree hconcept hlineage h

/-- What is read from a source is a plain column. -/
theorem not_aggregates_of_read (h : scope.bindings.contains a = true) :
    ¬ scope.Aggregates (.concept a) := by
  intro haggregates
  obtain ⟨hfree, -⟩ := aggregates_concept_iff.mp haggregates
  rw [Catalog.contains, hfree] at h
  cases h

/-- The text of a concept that is not read from a source is that of its lineage. -/
theorem exprSql_lineage {depth : Nat} {c : Concept} {lineage : Expr}
    (h : scope.conceptSqlWithin (depth + 1) a = .ok sql) (hfree : scope.bindings.get? a = none)
    (hconcept : scope.env.concept? a = some c) (hlineage : c.lineage = some lineage) :
    ∃ text, Plan.exprSql scope.call (scope.conceptSqlWithin depth) lineage = .ok text := by
  rw [conceptSqlWithin, hfree, hconcept] at h
  dsimp only at h
  rw [hlineage] at h
  cases lineage with
  | binary op lhs rhs =>
    obtain ⟨text, htext, -⟩ := except_bind_eq_ok.mp h
    exact ⟨text, htext⟩
  | _ => exact ⟨sql, h⟩

/-- What a concept counts as adds nothing to its lineage. -/
theorem isAggregateWithin_succ (hclassified : scope.env.Classified) {depth : Nat} :
    scope.isAggregateWithin (depth + 1) a = true ↔
      scope.bindings.get? a = none ∧ ∃ c lineage, scope.env.concept? a = some c ∧
        c.lineage = some lineage ∧ (lineage.hasAggregate = true ∨
          ∃ b ∈ lineage.mentions, scope.isAggregateWithin depth b = true) := by
  rw [isAggregateWithin, Catalog.contains]
  cases hfree : scope.bindings.get? a with
  | some text => simp
  | none =>
    cases hconcept : scope.env.concept? a with
    | none => simp
    | some c =>
      have hc : c.Classified := hclassified c (Environment.mem_values_of_concept? hconcept)
      simp only [Option.isSome_none, Bool.false_eq_true, if_false, Bool.or_eq_true,
        decide_eq_true_eq, hc.eq, Option.any_eq_true, List.any_eq_true, Expr.mem_concepts,
        true_and, Option.some.injEq]
      constructor
      · rintro (⟨lineage, hlineage, h⟩ | ⟨lineage, hlineage, h⟩)
        · exact ⟨c, lineage, rfl, hlineage, .inl h⟩
        · exact ⟨c, lineage, rfl, hlineage, h⟩
      · rintro ⟨c, lineage, rfl, hlineage, h⟩
        exact .inr ⟨lineage, hlineage, h⟩

/-- The planner finds an aggregate only where there is one. -/
theorem aggregates_of_isAggregateWithin (hclassified : scope.env.Classified) {depth : Nat}
    (h : scope.isAggregateWithin depth a = true) : scope.Aggregates (.concept a) := by
  induction depth generalizing a with
  | zero => cases h
  | succ depth ih =>
    obtain ⟨hfree, c, lineage, hconcept, hlineage, h⟩ := (isAggregateWithin_succ hclassified).mp h
    refine aggregates_concept_iff.mpr ⟨hfree, c, lineage, hconcept, hlineage, ?_⟩
    rw [aggregates_iff]
    exact h.imp_right fun ⟨b, hb, h⟩ => ⟨b, hb, ih h⟩

/-- Where a concept has a text, the planner finds every aggregate. -/
theorem isAggregateWithin_of_aggregates (hclassified : scope.env.Classified) {depth : Nat}
    (hsql : scope.conceptSqlWithin depth a = .ok sql) (h : scope.Aggregates (.concept a)) :
    scope.isAggregateWithin depth a = true := by
  induction depth generalizing a sql with
  | zero => cases hsql
  | succ depth ih =>
    obtain ⟨hfree, c, lineage, hconcept, hlineage, h⟩ := aggregates_concept_iff.mp h
    obtain ⟨text, htext⟩ := exprSql_lineage hsql hfree hconcept hlineage
    refine (isAggregateWithin_succ hclassified).mpr ⟨hfree, c, lineage, hconcept, hlineage, ?_⟩
    refine (aggregates_iff.mp h).imp_right fun ⟨b, hb, h⟩ => ⟨b, hb, ?_⟩
    obtain ⟨sql, hsql⟩ := ok_of_exprSql lineage htext b hb
    exact ih hsql h

theorem isAggregate_iff (hclassified : scope.env.Classified)
    (hsql : scope.conceptSql a = .ok sql) :
    scope.isAggregate a = true ↔ scope.Aggregates (.concept a) :=
  ⟨aggregates_of_isAggregateWithin hclassified, isAggregateWithin_of_aggregates hclassified hsql⟩

theorem exprIsAggregate_iff (hclassified : scope.env.Classified)
    (hsql : scope.exprSql e = .ok sql) :
    scope.exprIsAggregate e = true ↔ scope.Aggregates e := by
  rw [exprIsAggregate, Bool.or_eq_true, List.any_eq_true, aggregates_iff]
  refine or_congr_right (exists_congr fun a => ?_)
  rw [Expr.mem_concepts]
  refine and_congr_right fun ha => ?_
  obtain ⟨text, htext⟩ := ok_of_exprSql e hsql a ha
  exact isAggregate_iff hclassified htext

end Scope
end Plan
end ConceptQuery
