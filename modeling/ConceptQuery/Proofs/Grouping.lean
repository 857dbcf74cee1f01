import ConceptQuery.Proofs.Aggregates
import ConceptQuery.Proofs.Lineage

/-! # Grouped selects

A select with an aggregate is a query over groups of rows. Its items that do not aggregate
have a value in a group only if the rows are grouped by them. The aggregate may stand in an
item, in the condition or in an ordering, but what to group by is decided when only the
items have been seen. So of the selects without an aggregate in an item those are planned
well that have none elsewhere.
-/
namespace ConceptQuery

theorem exists_mem_iff_of_forall₂ {α β : Type} {R : α → β → Prop} {P : α → Prop} {Q : β → Prop}
    {xs : List α} {ys : List β} (h : List.Forall₂ R xs ys) (hR : ∀ {x y}, R x y → (P x ↔ Q y)) :
    (∃ x ∈ xs, P x) ↔ ∃ y ∈ ys, Q y := by
  induction h with
  | nil => simp
  | cons hxy _ ih => rw [List.exists_mem_cons_iff, List.exists_mem_cons_iff, hR hxy, ih]

namespace Plan

namespace Scope

/-- An item aggregates, be it hidden or not. -/
def ItemAggregates (scope : Scope) (select : Select) : Prop :=
  ∃ i ∈ select.items, scope.Aggregates (.concept i.concept)

def ConditionAggregates (scope : Scope) (select : Select) : Prop :=
  ∃ e ∈ select.condition, scope.Aggregates e

def OrderingAggregates (scope : Scope) (select : Select) : Prop :=
  ∃ o ∈ select.orderBy, scope.Aggregates o.expr

/-- Somewhere in the select there is an aggregate. -/
def AggregateOccurs (scope : Scope) (select : Select) : Prop :=
  scope.ItemAggregates select ∨ scope.ConditionAggregates select ∨
    scope.OrderingAggregates select

/-- With an aggregate, all other items are grouped by; without one there are no groups. -/
structure WellGrouped (scope : Scope) (select : Select) (plan : Plan) : Prop where
  grouped : scope.AggregateOccurs select → ∀ i ∈ select.items,
    ¬ scope.Aggregates (.concept i.concept) →
      ∃ sql, scope.conceptSql i.concept = .ok sql ∧ sql ∈ plan.groupBy
  ungrouped : ¬ scope.AggregateOccurs select → plan.groupBy = [] ∧ plan.having = none

/-- What an item is planned as. -/
structure Plans (scope : Scope) (item : SelectItem) (p : PlannedItem) : Prop where
  sql : scope.conceptSql item.concept = .ok p.sql
  name : p.name = columnName scope.env item.concept
  aggregate : p.aggregate = scope.isAggregate item.concept
  hidden : p.hidden = item.hidden

end Scope

/-- Texts and aggregates over what the planner has read. -/
def Planner.scope (p : Planner) (call : CallWriter) (env : Environment) : Scope :=
  ⟨env, call, p.bindings⟩

section Items
variable {scope : Scope} {item : SelectItem} {items : List SelectItem} {p : PlannedItem}
  {planned : List PlannedItem}

theorem Scope.Plans.aggregates_iff (h : scope.Plans item p) (hclassified : scope.env.Classified) :
    p.aggregate = true ↔ scope.Aggregates (.concept item.concept) := by
  rw [h.aggregate, Scope.isAggregate_iff hclassified h.sql]

theorem forall₂_planItems (h : planItems scope items = .ok planned) :
    List.Forall₂ scope.Plans items planned := by
  induction items generalizing planned with
  | nil =>
    obtain rfl := Except.ok.inj h
    exact .nil
  | cons item rest ih =>
    rw [planItems] at h
    obtain ⟨sql, hsql, h⟩ := except_bind_eq_ok.mp h
    obtain ⟨more, hmore, h⟩ := except_bind_eq_ok.mp h
    obtain rfl := Except.ok.inj h
    exact .cons ⟨hsql, rfl, rfl, rfl⟩ (ih hmore)

theorem mem_grouping {sql : String} : sql ∈ grouping planned ↔
    (∃ p ∈ planned, p.aggregate = true) ∧
      ∃ p ∈ planned, ¬ p.aggregate = true ∧ p.sql = sql := by
  rw [grouping]
  split
  · next h => simp [List.any_eq_true.mp h, and_assoc]
  · next h =>
    have hnone : ¬ ∃ p ∈ planned, p.aggregate = true := fun hp => h (List.any_eq_true.mpr hp)
    simp only [hnone, false_and, List.not_mem_nil]

end Items

section Planned
variable {scope : Scope} {sources : List PlanSource} {select : Select} {plan : Plan}

/-- What a plan is made of. -/
theorem planOver_eq_ok (h : planOver scope sources select = .ok plan) :
    ∃ planned condition orderBy, List.Forall₂ scope.Plans select.items planned ∧
      planOrdering scope select.orderBy = .ok orderBy ∧
      select.condition.map scope.exprSql = condition.map .ok ∧
      plan = {
        columns := outputColumns planned
        sources
        condition := if select.condition.any scope.exprIsAggregate then none else condition
        groupBy := grouping planned
        having := if select.condition.any scope.exprIsAggregate then condition else none
        orderBy
        limit := select.limit } := by
  rw [planOver] at h
  obtain ⟨planned, hplanned, h⟩ := except_bind_eq_ok.mp h
  cases hwhere : select.condition with
  | none =>
    rw [hwhere] at h
    obtain ⟨condition, hcondition, h⟩ := except_bind_eq_ok.mp h
    obtain rfl := Except.ok.inj hcondition
    obtain ⟨orderBy, horderBy, h⟩ := except_bind_eq_ok.mp h
    exact ⟨planned, none, orderBy, forall₂_planItems hplanned, horderBy, rfl,
      (Except.ok.inj h).symm⟩
  | some e =>
    rw [hwhere] at h
    obtain ⟨condition, hcondition, h⟩ := except_bind_eq_ok.mp h
    obtain ⟨sql, hsql, rfl⟩ := except_map_eq_ok.mp hcondition
    obtain ⟨orderBy, horderBy, h⟩ := except_bind_eq_ok.mp h
    exact ⟨planned, some sql, orderBy, forall₂_planItems hplanned, horderBy, congrArg some hsql,
      (Except.ok.inj h).symm⟩

theorem exists_conceptSql (h : planOver scope sources select = .ok plan) {i : SelectItem}
    (hi : i ∈ select.items) : ∃ sql, scope.conceptSql i.concept = .ok sql := by
  obtain ⟨planned, condition, orderBy, hplanned, -, -, -⟩ := planOver_eq_ok h
  obtain ⟨n, hn, rfl⟩ := List.mem_iff_getElem.mp hi
  exact ⟨_, (hplanned.get hn (by rw [← hplanned.length_eq]; exact hn)).sql⟩

/-- Only aggregates among the items make groups, and these are by all other items. -/
theorem mem_groupBy_iff (hclassified : scope.env.Classified)
    (h : planOver scope sources select = .ok plan) {sql : String} :
    sql ∈ plan.groupBy ↔ scope.ItemAggregates select ∧
      ∃ i ∈ select.items, ¬ scope.Aggregates (.concept i.concept) ∧
        scope.conceptSql i.concept = .ok sql := by
  obtain ⟨planned, condition, orderBy, hplanned, -, -, rfl⟩ := planOver_eq_ok h
  have hitems := exists_mem_iff_of_forall₂ hplanned fun hp => (hp.aggregates_iff hclassified).symm
  have hothers : (∃ i ∈ select.items, ¬ scope.Aggregates (.concept i.concept) ∧
      scope.conceptSql i.concept = .ok sql) ↔
        ∃ p ∈ planned, ¬ p.aggregate = true ∧ p.sql = sql := by
    refine exists_mem_iff_of_forall₂ hplanned fun hp => ?_
    rw [hp.aggregates_iff hclassified, hp.sql, Except.ok.injEq]
  rw [mem_grouping, ← hitems, ← hothers, Scope.ItemAggregates]

theorem having_isSome_iff (hclassified : scope.env.Classified)
    (h : planOver scope sources select = .ok plan) :
    plan.having.isSome = true ↔ scope.ConditionAggregates select := by
  obtain ⟨planned, condition, orderBy, -, -, hcondition, rfl⟩ := planOver_eq_ok h
  rw [Scope.ConditionAggregates]
  cases hwhere : select.condition with
  | none => simp
  | some e =>
    rw [hwhere] at hcondition
    obtain ⟨sql, rfl, hsql⟩ := Option.map_eq_some_iff.mp hcondition.symm
    rw [Option.any_some]
    simp only [Option.mem_some_iff, exists_eq_left',
      ← Scope.exprIsAggregate_iff hclassified hsql.symm]
    split
    · next h => simp [h]
    · next h => simp [h]

/-- The plan of a select is well grouped except if an aggregate stands in the condition or in
an ordering, and there are items but none of them aggregates. -/
theorem wellGrouped_iff (hclassified : scope.env.Classified)
    (h : planOver scope sources select = .ok plan) :
    scope.WellGrouped select plan ↔
      scope.ItemAggregates select ∨ select.items = [] ∨
        ¬ (scope.ConditionAggregates select ∨ scope.OrderingAggregates select) := by
  have hgroupBy : ∀ {sql}, sql ∈ plan.groupBy ↔ _ := mem_groupBy_iff hclassified h
  constructor
  · intro hwell
    -- an item that has to be grouped by, while no item makes groups
    by_contra! hnot
    obtain ⟨hitems, hne, hoccurs⟩ := hnot
    obtain ⟨i, hi⟩ := List.exists_mem_of_ne_nil _ hne
    obtain ⟨sql, -, hsql⟩ := hwell.grouped (.inr hoccurs) i hi fun hagg => hitems ⟨i, hi, hagg⟩
    exact hitems (hgroupBy.mp hsql).1
  · intro hcases
    refine ⟨fun hoccurs i hi hplain => ?_, fun hnone => ⟨?_, ?_⟩⟩
    · have hitems : scope.ItemAggregates select := by
        rcases hcases with hitems | hempty | hnot
        · exact hitems
        · rw [hempty] at hi
          cases hi
        · exact hoccurs.resolve_right hnot
      obtain ⟨sql, hsql⟩ := exists_conceptSql h hi
      exact ⟨sql, hsql, hgroupBy.mpr ⟨hitems, i, hi, hplain, hsql⟩⟩
    · refine List.eq_nil_iff_forall_not_mem.mpr fun sql hsql => ?_
      exact hnone (.inl (hgroupBy.mp hsql).1)
    · refine Option.not_isSome_iff_eq_none.mp fun hsome => ?_
      exact hnone (.inr (.inl ((having_isSome_iff hclassified h).mp hsome)))

theorem planOver_of_planSelect {call : CallWriter} {env : Environment} {p p' : Planner}
    (h : (planSelect call env select).run p = .ok (plan, p')) :
    ∃ sources, planOver (p'.scope call env) sources select = .ok plan := by
  rw [run_planSelect] at h
  obtain ⟨roots, -, h⟩ := except_bind_eq_ok.mp h
  obtain ⟨choice, -, h⟩ := except_bind_eq_ok.mp h
  obtain ⟨plan', hplan, h⟩ := except_bind_eq_ok.mp h
  obtain ⟨rfl, rfl⟩ := Prod.mk.inj (Except.ok.inj h)
  exact ⟨choice.sources, hplan⟩

end Planned
end Plan

open Compile Plan

theorem Compilation.classified_of_run {load : Loader} {depth : Nat} {stack : List String}
    {text : String} {tree : Tree Leaf}
    (h : (Compilation.run (compileModule load depth stack) .initial text tree).error = none) :
    (Compilation.run (compileModule load depth stack) .initial text tree).env.Classified := by
  obtain ⟨hsteps, -⟩ := Compilation.kept_of_run kept_mentions h
  exact hsteps.classified fun _ _ => Environment.classified_compileModule

/-- A plan is well grouped exactly if an item of the select aggregates, or it has no items,
or there is no aggregate in its condition and its orderings either. -/
theorem Compilation.planSelect_wellGrouped_iff {load : Loader} {depth : Nat} {stack : List String}
    {text : String} {tree : Tree Leaf} {c : Compilation}
    (hrun : Compilation.run (compileModule load depth stack) .initial text tree = c)
    (hresolved : c.error = none) {call : CallWriter} {select : Select} {p p' : Planner}
    {plan : Plan} (hplan : (planSelect call c.env select).run p = .ok (plan, p')) :
    (p'.scope call c.env).WellGrouped select plan ↔
      (p'.scope call c.env).ItemAggregates select ∨ select.items = [] ∨
        ¬ ((p'.scope call c.env).ConditionAggregates select ∨
          (p'.scope call c.env).OrderingAggregates select) := by
  subst hrun
  obtain ⟨sources, hover⟩ := planOver_of_planSelect hplan
  exact wellGrouped_iff (Compilation.classified_of_run hresolved) hover

/-- Users with names, and a query. -/
def usersWith (query : String) : String :=
  "key id int;\nproperty id.name string;\ndatasource users (id, name) address users;\n" ++ query

/-- The number of users per name is grouped by the name. -/
theorem Compilation.planSelect_wellGrouped_iff_perName :
    ∃ tree c, parse (usersWith "select name, count(id) -> n where n > 1;") = .ok tree ∧
      Compilation.run (compileModule (Library.mk [] id).load 0 []) .initial
        (usersWith "select name, count(id) -> n where n > 1;") tree = c ∧
      c.error = none ∧
      ∃ s ∈ c.selects, ∃ plan p, (planSelect DuckDb.call c.env s).run {} = .ok (plan, p) ∧
        plan.groupBy = ["\"users\".\"name\""] ∧
        (p.scope DuckDb.call c.env).WellGrouped s plan := by
  have hcomputed : ∃ tree, parse (usersWith "select name, count(id) -> n where n > 1;") = .ok tree ∧
      (fun c : Compilation => some (c.error, c.selects.any fun s =>
          ((planSelect DuckDb.call c.env s).run {}).toOption.any fun r =>
            decide (r.1.groupBy = ["\"users\".\"name\""])))
        (Compilation.run (compileModule (Library.mk [] id).load 0 []) .initial
          (usersWith "select name, count(id) -> n where n > 1;") tree) =
        some (none, true) := by
    apply exists_tree
    decide +kernel
  obtain ⟨tree, hparse, hcomputed⟩ := hcomputed
  obtain ⟨hresolved, hselects⟩ := Prod.mk.inj (Option.some.inj hcomputed)
  obtain ⟨s, hs, hplanned⟩ := List.any_eq_true.mp hselects
  obtain ⟨⟨plan, p⟩, hplan, hgroupBy⟩ := exists_of_any hplanned
  have hgroupBy := of_decide_eq_true hgroupBy
  refine ⟨tree, _, hparse, rfl, hresolved, s, hs, plan, p, hplan, hgroupBy, ?_⟩
  obtain ⟨sources, hover⟩ := planOver_of_planSelect hplan
  refine (Compilation.planSelect_wellGrouped_iff rfl hresolved hplan).mpr (.inl ?_)
  exact ((mem_groupBy_iff (Compilation.classified_of_run hresolved) hover).mp
    (hgroupBy ▸ List.mem_cons_self)).1

/-- A filter on groups, with no aggregate among the items: there is nothing to group by. -/
theorem Compilation.not_wellGrouped_filtered :
    ∃ tree c, parse (usersWith "select name where count(id) > 1;") = .ok tree ∧
      Compilation.run (compileModule (Library.mk [] id).load 0 []) .initial
        (usersWith "select name where count(id) > 1;") tree = c ∧
      c.error = none ∧
      ∃ s ∈ c.selects, ∃ plan p, (planSelect DuckDb.call c.env s).run {} = .ok (plan, p) ∧
        plan.having.isSome = true ∧ plan.groupBy = [] ∧
        ¬ (p.scope DuckDb.call c.env).WellGrouped s plan := by
  have hcomputed : ∃ tree, parse (usersWith "select name where count(id) > 1;") = .ok tree ∧
      (fun c : Compilation => some (c.error, c.selects.any fun s =>
          ((planSelect DuckDb.call c.env s).run {}).toOption.any fun r =>
            decide (r.1.having.isSome = true ∧ r.1.groupBy = []) &&
              s.items.any fun i => r.2.bindings.contains i.concept))
        (Compilation.run (compileModule (Library.mk [] id).load 0 []) .initial
          (usersWith "select name where count(id) > 1;") tree) =
        some (none, true) := by
    apply exists_tree
    decide +kernel
  obtain ⟨tree, hparse, hcomputed⟩ := hcomputed
  obtain ⟨hresolved, hselects⟩ := Prod.mk.inj (Option.some.inj hcomputed)
  obtain ⟨s, hs, hplanned⟩ := List.any_eq_true.mp hselects
  obtain ⟨⟨plan, p⟩, hplan, hcomputed⟩ := exists_of_any hplanned
  obtain ⟨hgroups, hread⟩ := Bool.and_eq_true_iff.mp hcomputed
  obtain ⟨hhaving, hgroupBy⟩ := of_decide_eq_true hgroups
  obtain ⟨i, hi, hread⟩ := List.any_eq_true.mp hread
  refine ⟨tree, _, hparse, rfl, hresolved, s, hs, plan, p, hplan, hhaving, hgroupBy, ?_⟩
  intro hwell
  obtain ⟨sources, hover⟩ := planOver_of_planSelect hplan
  have hcondition := (having_isSome_iff (Compilation.classified_of_run hresolved) hover).mp hhaving
  obtain ⟨sql, -, hsql⟩ := hwell.grouped (.inr (.inl hcondition)) i hi
    (Scope.not_aggregates_of_read hread)
  rw [hgroupBy] at hsql
  cases hsql

end ConceptQuery
