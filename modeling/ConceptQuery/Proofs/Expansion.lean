import ConceptQuery.Proofs.Grouping

/-! # Expressions with their lineages put in

What a select computes is its expressions with the lineage of every concept that is not
read put in its place, as one operand, and so on. `Scope.expand` is that expression. The
planner never builds it: it flags what aggregates by a recursion of its own, which mixes
what a concept counts as, the calls in its lineage and the concepts that this mentions.
Both agree, so flags, groups and the place of the condition can be read off the expansion.
-/
namespace ConceptQuery

namespace Expr

mutual
/-- The expression with another one in the place of each concept. -/
def subst (f : String → Expr) : Expr → Expr
  | concept address => f address
  | literal value => literal value
  | type datatype => type datatype
  | call function arguments => call function (substAll f arguments)
  | binary op lhs rhs => binary op (subst f lhs) (subst f rhs)
  | unary op operand => unary op (subst f operand)
  | isNull operand negated => isNull (subst f operand) negated
  | inList operand items negated => inList (subst f operand) (substAll f items) negated
  | paren inner => paren (subst f inner)

def substAll (f : String → Expr) : List Expr → List Expr
  | [] => []
  | e :: es => subst f e :: substAll f es
end

mutual
theorem subst_congr {f g : String → Expr} (e : Expr) (h : ∀ a ∈ e.mentions, f a = g a) :
    e.subst f = e.subst g := by
  cases e with
  | concept address => exact h address (List.mem_singleton_self address)
  | literal value => rfl
  | type datatype => rfl
  | call function arguments => rw [subst, subst, substAll_congr arguments h]
  | binary op lhs rhs =>
    rw [subst, subst, subst_congr lhs fun a ha => h a (List.mem_append_left _ ha),
      subst_congr rhs fun a ha => h a (List.mem_append_right _ ha)]
  | unary op operand => rw [subst, subst, subst_congr operand h]
  | isNull operand negated => rw [subst, subst, subst_congr operand h]
  | inList operand items negated =>
    rw [subst, subst, subst_congr operand fun a ha => h a (List.mem_append_left _ ha),
      substAll_congr items fun a ha => h a (List.mem_append_right _ ha)]
  | paren inner => rw [subst, subst, subst_congr inner h]

theorem substAll_congr {f g : String → Expr} (es : List Expr)
    (h : ∀ a ∈ mentionsAll es, f a = g a) : substAll f es = substAll g es := by
  cases es with
  | nil => rfl
  | cons e es =>
    rw [substAll, substAll, subst_congr e fun a ha => h a (List.mem_append_left _ ha),
      substAll_congr es fun a ha => h a (List.mem_append_right _ ha)]
end

mutual
/-- Aggregates are called in an expression or come in with what is put into it. -/
theorem hasAggregate_subst {f : String → Expr} (e : Expr) :
    (e.subst f).hasAggregate = true ↔
      e.hasAggregate = true ∨ ∃ a ∈ e.mentions, (f a).hasAggregate = true := by
  cases e with
  | concept address => simp [subst, hasAggregate, mentions]
  | literal value => simp [subst, hasAggregate, mentions]
  | type datatype => simp [subst, hasAggregate, mentions]
  | call function arguments =>
    simp only [subst, hasAggregate, mentions, Bool.or_eq_true, anyAggregate_substAll arguments,
      or_assoc]
  | binary op lhs rhs =>
    simp only [subst, hasAggregate, mentions, Bool.or_eq_true, hasAggregate_subst lhs,
      hasAggregate_subst rhs, List.mem_append, or_and_right, exists_or, or_or_or_comm]
  | unary op operand => simp only [subst, hasAggregate, mentions, hasAggregate_subst operand]
  | isNull operand negated => simp only [subst, hasAggregate, mentions, hasAggregate_subst operand]
  | inList operand items negated =>
    simp only [subst, hasAggregate, mentions, Bool.or_eq_true, hasAggregate_subst operand,
      anyAggregate_substAll items, List.mem_append, or_and_right, exists_or, or_or_or_comm]
  | paren inner => simp only [subst, hasAggregate, mentions, hasAggregate_subst inner]

theorem anyAggregate_substAll {f : String → Expr} (es : List Expr) :
    anyAggregate (substAll f es) = true ↔
      anyAggregate es = true ∨ ∃ a ∈ mentionsAll es, (f a).hasAggregate = true := by
  cases es with
  | nil => simp [substAll, anyAggregate, mentionsAll]
  | cons e es =>
    simp only [substAll, anyAggregate, mentionsAll, Bool.or_eq_true, hasAggregate_subst e,
      anyAggregate_substAll es, List.mem_append, or_and_right, exists_or, or_or_or_comm]
end

end Expr

/-- How concepts come about: declared without a lineage, derived from one, or seen through
an import. What else there is to say of them is set afterwards. -/
inductive Concept.Made : Concept → Prop where
  | declared {c : Concept} (hlineage : c.lineage = none) (hderivation : c.derivation = .root) :
      Made c
  | derived {c : Concept} {lineage : Expr} (hlineage : c.lineage = some lineage)
      (hderivation : c.derivation = derivationOf lineage) : Made c
  | requalified {c d : Concept} {into : String} (h : Made c)
      (hlineage : d.lineage = (c.requalified into).lineage)
      (hderivation : d.derivation = (c.requalified into).derivation) : Made d

theorem Concept.Made.classified {c : Concept} (h : c.Made) : c.Classified := by
  induction h with
  | declared hlineage hderivation => exact classified_declared hlineage hderivation
  | derived hlineage hderivation => exact classified_derived hlineage hderivation
  | @requalified c d into _ hlineage hderivation ih =>
    have hmoved : (c.moved into).Classified := ih.moved
    unfold Classified at hmoved ⊢
    rw [hlineage, hderivation]
    exact hmoved

namespace Plan.Scope
variable {scope : Scope} {e : Expr} {a : String}

/-- What stands for a concept; `depth` bounds the chain of lineages. -/
def expansionWithin (scope : Scope) : (depth : Nat) → String → Expr
  | 0, address => .concept address
  | depth + 1, address =>
    if scope.bindings.contains address then .concept address
    else match (scope.env.concept? address).bind Concept.lineage with
      | some lineage => .paren (lineage.subst (expansionWithin scope depth))
      | none => .concept address

/-- The expression with the lineage of each concept that is not read in its place. -/
def expand (scope : Scope) (e : Expr) : Expr :=
  e.subst (scope.expansionWithin scope.depth)

theorem expansionWithin_eq (h : scope.env.Acyclic) {n m : Nat} (hn : scope.env.height a < n)
    (hm : scope.env.height a < m) : scope.expansionWithin n a = scope.expansionWithin m a := by
  induction n generalizing m a with
  | zero => omega
  | succ n ih =>
    cases m with
    | zero => omega
    | succ m =>
      rw [expansionWithin, expansionWithin]
      split
      · rfl
      · cases hlineage : (scope.env.concept? a).bind Concept.lineage with
        | none => rfl
        | some lineage =>
          obtain ⟨c, hc, hl⟩ := Option.bind_eq_some_iff.mp hlineage
          refine congrArg Expr.paren (Expr.subst_congr lineage fun b hb => ?_)
          have hlt := h.height_lt (uses_of_lineage hc hl hb)
          exact ih (by omega) (by omega)

/-- Without circles the bound on the chain of lineages is no part of what an expansion is. -/
theorem expand_concept (h : scope.env.Acyclic) (a : String) :
    scope.expand (.concept a) =
      if scope.bindings.contains a then .concept a
      else match (scope.env.concept? a).bind Concept.lineage with
        | some lineage => .paren (scope.expand lineage)
        | none => .concept a := by
  have hdepth : ∀ b, scope.env.height b < scope.depth := fun b =>
    Nat.lt_succ_of_le (scope.env.height_le_size b)
  have hmore : scope.expand (.concept a) = scope.expansionWithin (scope.depth + 1) a :=
    expansionWithin_eq h (hdepth a) (Nat.lt_succ_of_lt (hdepth a))
  rw [hmore, expansionWithin]
  rfl

theorem aggregates_of_expansionWithin {depth : Nat}
    (h : (scope.expansionWithin depth a).hasAggregate = true) :
    scope.Aggregates (.concept a) := by
  induction depth generalizing a with
  | zero => cases h
  | succ depth ih =>
    rw [expansionWithin] at h
    split at h
    · cases h
    · next hfree =>
      have hfree : scope.bindings.get? a = none := by simpa [Catalog.contains] using hfree
      split at h
      · next lineage hlineage =>
        obtain ⟨c, hc, hl⟩ := Option.bind_eq_some_iff.mp hlineage
        refine aggregates_concept_iff.mpr ⟨hfree, c, lineage, hc, hl, aggregates_iff.mpr ?_⟩
        refine ((Expr.hasAggregate_subst lineage).mp h).imp_right ?_
        rintro ⟨b, hb, h⟩
        exact ⟨b, hb, ih h⟩
      · cases h

theorem expansionWithin_of_aggregates (h : scope.env.Acyclic) {depth : Nat}
    (hdepth : scope.env.height a < depth) (hagg : scope.Aggregates (.concept a)) :
    (scope.expansionWithin depth a).hasAggregate = true := by
  induction depth generalizing a with
  | zero => omega
  | succ depth ih =>
    obtain ⟨hfree, c, lineage, hc, hl, hagg⟩ := aggregates_concept_iff.mp hagg
    have hread : ¬ scope.bindings.contains a = true := by simp [Catalog.contains, hfree]
    rw [expansionWithin, if_neg hread, hc, Option.bind_some, hl]
    refine (Expr.hasAggregate_subst lineage).mpr ?_
    refine (aggregates_iff.mp hagg).imp_right ?_
    rintro ⟨b, hb, hagg⟩
    have hlt := h.height_lt (uses_of_lineage hc hl hb)
    exact ⟨b, hb, ih (by omega) hagg⟩

/-- An expression aggregates exactly if its expansion calls an aggregate function. -/
theorem hasAggregate_expand (h : scope.env.Acyclic) :
    (scope.expand e).hasAggregate = true ↔ scope.Aggregates e := by
  rw [expand, Expr.hasAggregate_subst, aggregates_iff]
  refine or_congr_right (exists_congr fun a => and_congr_right fun _ => ?_)
  have hdepth : scope.env.height a < scope.depth :=
    Nat.lt_succ_of_le (scope.env.height_le_size a)
  exact ⟨aggregates_of_expansionWithin, expansionWithin_of_aggregates h hdepth⟩

end Plan.Scope

theorem map_filter_of_forall₂ {α β γ : Type} {R : α → β → Prop} {p : α → Bool} {q : β → Bool}
    {f : α → γ} {g : β → γ} {xs : List α} {ys : List β} (h : List.Forall₂ R xs ys)
    (hfilter : ∀ {x y}, R x y → p x = q y) (hmap : ∀ {x y}, R x y → f x = g y) :
    (xs.filter p).map f = (ys.filter q).map g := by
  induction h with
  | nil => rfl
  | cons hxy _ ih =>
    rw [List.filter_cons, List.filter_cons, hfilter hxy]
    split
    · rw [List.map_cons, List.map_cons, hmap hxy, ih]
    · exact ih

namespace Plan
variable {call : CallWriter} {env : Environment} {scope : Scope} {select : Select}
  {planned : List PlannedItem}

theorem Scope.Plans.aggregate_eq {item : SelectItem} {p : PlannedItem} (h : scope.Plans item p)
    (hacyclic : scope.env.Acyclic) (hclassified : scope.env.Classified) :
    (scope.expand (.concept item.concept)).hasAggregate = p.aggregate := by
  rw [Bool.eq_iff_iff, Scope.hasAggregate_expand hacyclic, h.aggregates_iff hclassified]

/-- The planner's test of an expression that has a text is that of its expansion. -/
theorem Scope.exprIsAggregate_eq {e : Expr} {sql : String} (hacyclic : scope.env.Acyclic)
    (hclassified : scope.env.Classified) (hsql : scope.exprSql e = .ok sql) :
    scope.exprIsAggregate e = (scope.expand e).hasAggregate := by
  rw [Bool.eq_iff_iff, Scope.exprIsAggregate_iff hclassified hsql,
    Scope.hasAggregate_expand hacyclic]

/-- The condition filters groups if its expansion aggregates, and rows if not. -/
theorem condition_eq {condition : Option String} (hacyclic : scope.env.Acyclic)
    (hclassified : scope.env.Classified)
    (h : select.condition.map scope.exprSql = condition.map .ok) :
    (if select.condition.any scope.exprIsAggregate then condition else none).map Except.ok =
        (select.condition.filter fun e => (scope.expand e).hasAggregate).map scope.exprSql ∧
      (if select.condition.any scope.exprIsAggregate then none else condition).map Except.ok =
        (select.condition.filter fun e => !(scope.expand e).hasAggregate).map scope.exprSql := by
  cases hwhere : select.condition with
  | none =>
    rw [hwhere] at h
    obtain rfl : condition = none := by simpa using h.symm
    simp
  | some e =>
    rw [hwhere] at h
    obtain ⟨sql, rfl, hsql⟩ := Option.map_eq_some_iff.mp h.symm
    rw [Option.any_some, Scope.exprIsAggregate_eq hacyclic hclassified hsql.symm]
    cases hagg : (scope.expand e).hasAggregate with
    | true => simp [Option.filter, hagg, hsql]
    | false => simp [Option.filter, hagg, hsql]

theorem grouping_eq (hacyclic : scope.env.Acyclic) (hclassified : scope.env.Classified)
    (h : List.Forall₂ scope.Plans select.items planned) :
    (grouping planned).map Except.ok =
      if select.items.any fun i => (scope.expand (.concept i.concept)).hasAggregate then
        (select.items.filter fun i => !(scope.expand (.concept i.concept)).hasAggregate).map
          fun i => scope.conceptSql i.concept
      else [] := by
  have hany : (select.items.any fun i => (scope.expand (.concept i.concept)).hasAggregate) =
      planned.any PlannedItem.aggregate := by
    rw [Bool.eq_iff_iff, List.any_eq_true, List.any_eq_true]
    exact exists_mem_iff_of_forall₂ h fun hp => by rw [hp.aggregate_eq hacyclic hclassified]
  rw [grouping, hany, apply_ite (List.map Except.ok), List.map_map]
  congr 1
  refine (map_filter_of_forall₂ h (fun hp => ?_) fun hp => hp.sql).symm
  rw [hp.aggregate_eq hacyclic hclassified]

/-- In an environment without circles, whose concepts count as what their lineages are, the
plan of a select follows from the expansions of its parts. A column is flagged if that of
its item aggregates. The condition filters groups if its own does, and rows if not. If any
item aggregates, hidden or not, the select is grouped by those that do not, in order. -/
theorem planSelect_flags {plan : Plan} {p p' : Planner} (hacyclic : env.Acyclic)
    (hmade : ∀ c ∈ env.concepts.values, c.Made)
    (hplan : (planSelect call env select).run p = .ok (plan, p')) :
    plan.columns.map (fun column => (Except.ok column.sql, column.aggregate)) =
      select.outputs.map (fun a => ((p'.scope call env).conceptSql a,
        ((p'.scope call env).expand (.concept a)).hasAggregate)) ∧
    plan.having.map .ok =
      (select.condition.filter fun e => ((p'.scope call env).expand e).hasAggregate).map
        (p'.scope call env).exprSql ∧
    plan.condition.map .ok =
      (select.condition.filter fun e => !((p'.scope call env).expand e).hasAggregate).map
        (p'.scope call env).exprSql ∧
    plan.groupBy.map .ok =
      if select.items.any fun i =>
          ((p'.scope call env).expand (.concept i.concept)).hasAggregate then
        (select.items.filter fun i =>
          !((p'.scope call env).expand (.concept i.concept)).hasAggregate).map
            fun i => (p'.scope call env).conceptSql i.concept
      else [] := by
  have hacyclic : (p'.scope call env).env.Acyclic := hacyclic
  have hclassified : (p'.scope call env).env.Classified := fun c hc => (hmade c hc).classified
  obtain ⟨sources, hover⟩ := planOver_of_planSelect hplan
  obtain ⟨planned, condition, orderBy, hplanned, -, hcondition, rfl⟩ := planOver_eq_ok hover
  obtain ⟨hhaving, hwhere⟩ := condition_eq hacyclic hclassified hcondition
  refine ⟨?_, hhaving, hwhere, grouping_eq hacyclic hclassified hplanned⟩
  rw [outputColumns, Select.outputs, List.map_map, List.map_map]
  refine (map_filter_of_forall₂ hplanned (fun hp => by rw [hp.hidden]) fun hp => ?_).symm
  exact Prod.ext hp.sql (hp.aggregate_eq hacyclic hclassified)

/-- Sales by day. The revenue is a metric that is read, the visits are one that is counted,
and the yield is computed row by row from both. -/
def dailySales : Environment :=
  { Environment.initial with
    concepts := ⟨[
      ("local.day", { name := "day", space := "local", datatype := .date, purpose := .key }),
      ("local.visit", { name := "visit", space := "local", datatype := .integer, purpose := .key }),
      ("local.revenue", Concept.derived "revenue" "local" .metric .float
        (.call "sum" [.concept "local.price"])),
      ("local.visits", Concept.derived "visits" "local" .metric .integer
        (.call "count" [.concept "local.visit"])),
      ("local.yield", Concept.derived "yield" "local" .auto .float
        (.binary .div (.concept "local.revenue") (.concept "local.visits")))]⟩
    datasources := ⟨[("sales",
      { name := "sales", space := "local", grain := [], address := .table "sales", isRoot := false
        columns := [⟨"day", "local.day"⟩, ⟨"visit", "local.visit"⟩,
          ⟨"revenue", "local.revenue"⟩] })]⟩ }

/-- Days with their revenue, and a yield that is not shown but filters. -/
def selectYield : Select :=
  { items := [⟨"local.day", false⟩, ⟨"local.revenue", false⟩, ⟨"local.yield", true⟩]
    condition := some (.binary .gt (.concept "local.yield") (.literal (.number "1")))
    orderBy := [], limit := none, line := none }

/-- The hidden yield is what makes groups, by the day and by the revenue that is read. -/
theorem planSelect_flags_dailySales :
    dailySales.Acyclic ∧ (∀ c ∈ dailySales.concepts.values, c.Made) ∧
    ∃ plan p, (planSelect DuckDb.call dailySales selectYield).run {} = .ok (plan, p) ∧
      plan.columns.map OutputColumn.aggregate = [false, false] ∧
      plan.groupBy = ["\"sales\".\"day\"", "\"sales\".\"revenue\""] ∧
      plan.having.isSome = true ∧
      (selectYield.items.any fun i =>
        ((p.scope DuckDb.call dailySales).expand (.concept i.concept)).hasAggregate) = true ∧
      ∃ e ∈ selectYield.condition,
        ((p.scope DuckDb.call dailySales).expand e).hasAggregate = true := by
  have hacyclic : dailySales.Acyclic := by
    apply Environment.acyclic_of_rank fun a =>
      if a = "local.yield" then 2
      else if a = "local.revenue" ∨ a = "local.visits" then 1 else 0
    decide
  have hmade : ∀ c ∈ dailySales.concepts.values, c.Made := by
    simp only [dailySales, Catalog.values, List.map_cons, List.map_nil, List.forall_mem_cons]
    exact ⟨.declared rfl rfl, .declared rfl rfl, .derived rfl rfl, .derived rfl rfl,
      .derived rfl rfl, by simp⟩
  have hcomputed : ((planSelect DuckDb.call dailySales selectYield).run {}).toOption.any
      (fun r => decide (r.1.columns.map OutputColumn.aggregate = [false, false] ∧
        r.1.groupBy = ["\"sales\".\"day\"", "\"sales\".\"revenue\""] ∧
        r.1.having.isSome = true)) = true := by
    decide +kernel
  obtain ⟨⟨plan, p⟩, hplan, hcomputed⟩ := exists_of_any hcomputed
  obtain ⟨hflags, hgroupBy, hhaving⟩ := of_decide_eq_true hcomputed
  obtain ⟨-, hfilters, -, hgroups⟩ := planSelect_flags hacyclic hmade hplan
  refine ⟨hacyclic, hmade, plan, p, hplan, hflags, hgroupBy, hhaving, ?_, ?_⟩
  · by_contra hnone
    rw [if_neg hnone, hgroupBy] at hgroups
    cases hgroups
  · obtain ⟨sql, hsql⟩ := Option.isSome_iff_exists.mp hhaving
    rw [hsql, Option.map_some] at hfilters
    obtain ⟨e, he, -⟩ := Option.map_eq_some_iff.mp hfilters.symm
    obtain ⟨hmem, hagg⟩ := Option.filter_eq_some_iff.mp he
    exact ⟨e, hmem, hagg⟩

end Plan
end ConceptQuery
