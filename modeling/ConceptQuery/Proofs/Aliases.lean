import ConceptQuery.Proofs.ColumnReferences

/-! # When aliases tell sources apart

The datasources of a query are told apart by their identifiers, but a column is written
behind an alias: the identifier with its dots made underscores. So two sources have one
alias if their identifiers differ in dots and underscores only, and then the join of the
later one is written with columns that belong to both: `Compilation.aliases_nodup_iff`.
-/
namespace ConceptQuery

section Undotted

/-- Two characters of which an alias keeps no difference. -/
def SameUndotted (c c' : Char) : Prop :=
  c = c' ∨ c ∈ ['.', '_'] ∧ c' ∈ ['.', '_']

theorem sameUndotted_iff {c c' : Char} :
    (if c = '.' then '_' else c) = (if c' = '.' then '_' else c') ↔ SameUndotted c c' := by
  simp only [SameUndotted, List.mem_cons, List.not_mem_nil, or_false]
  split <;> split <;> grind

/-- Names are one without their dots if they differ in dots and underscores only. -/
theorem undotted_eq_iff {name name' : String} : undotted name = undotted name' ↔
    List.Forall₂ SameUndotted name.toList name'.toList := by
  rw [undotted, undotted, String.ofList_inj, ← List.forall₂_eq_eq_eq, List.forall₂_map_left_iff,
    List.forall₂_map_right_iff]
  simp only [sameUndotted_iff]

end Undotted

namespace Plan

/-- All texts in a plan: what its joins equate, its columns, conditions, groups and orderings. -/
def texts (plan : Plan) : List String :=
  plan.sources.flatMap (fun source => source.joinOn.flatMap fun pair => [pair.1, pair.2]) ++
    (plan.columns.map OutputColumn.sql ++ (plan.condition.toList ++
      (plan.groupBy ++ (plan.having.toList ++ plan.orderBy))))

section Denoting
variable {sources : List Datasource} {ref : String × String}

/-- A column as it is written belongs to one of the sources. -/
def Belongs (sources : List Datasource) (ref : String × String) : Prop :=
  ∃ d ∈ sources, aliasFor d = ref.1 ∧ ∃ b ∈ d.columns, b.column = ref.2

/-- A column as it is written belongs to a source, and no other source has that alias. -/
def DenotesOne (sources : List Datasource) (ref : String × String) : Prop :=
  ∃ (i : Nat) (d : Datasource), sources[i]? = some d ∧ aliasFor d = ref.1 ∧
    (∃ b ∈ d.columns, b.column = ref.2) ∧
    ∀ (j : Nat) (e : Datasource), sources[j]? = some e → aliasFor e = ref.1 → j = i

/-- Without a repetition the value at an index is nowhere else. -/
theorem index_eq_of_nodup {α β : Type} {xs : List α} {f : α → β} (h : (xs.map f).Nodup)
    {i j : Nat} {x y : α} (hi : xs[i]? = some x) (hj : xs[j]? = some y) (hsame : f x = f y) :
    i = j := by
  have hx : (xs.map f)[i]? = some (f y) := by rw [List.getElem?_map, hi, Option.map_some, hsame]
  have hy : (xs.map f)[j]? = some (f y) := by rw [List.getElem?_map, hj, Option.map_some]
  obtain ⟨hlength, -⟩ := List.getElem?_eq_some_iff.mp hx
  exact (List.getElem?_inj hlength h).mp (hx.trans hy.symm)

theorem Belongs.denotesOne (h : Belongs sources ref) (hnodup : (sources.map aliasFor).Nodup) :
    DenotesOne sources ref := by
  obtain ⟨d, hd, halias, hcolumn⟩ := h
  obtain ⟨i, hi⟩ := List.mem_iff_getElem?.mp hd
  exact ⟨i, d, hi, halias, hcolumn, fun j e hj he =>
    index_eq_of_nodup hnodup hj hi (he.trans halias.symm)⟩

theorem DenotesOne.index_eq (h : DenotesOne sources ref) {i j : Nat} {d e : Datasource}
    (hi : sources[i]? = some d) (hj : sources[j]? = some e) (hd : aliasFor d = ref.1)
    (he : aliasFor e = ref.1) : i = j := by
  obtain ⟨k, f, -, -, -, hall⟩ := h
  exact (hall i d hi hd).trans (hall j e hj he).symm

/-- With different identifiers, no alias occurs twice exactly if no two identifiers differ in
dots and underscores only. -/
theorem aliases_nodup_iff_identifiers (h : (sources.map Datasource.identifier).Nodup) :
    (sources.map aliasFor).Nodup ↔ ∀ d ∈ sources, ∀ e ∈ sources,
      List.Forall₂ SameUndotted d.identifier.toList e.identifier.toList →
        d.identifier = e.identifier := by
  constructor
  · intro hnodup d hd e he halike
    rw [List.inj_on_of_nodup_map hnodup hd he (undotted_eq_iff.mpr halike)]
  · intro hall
    refine (h.of_map).map_on fun d hd e he hsame => ?_
    exact List.inj_on_of_nodup_map h hd he (hall d hd e he (undotted_eq_iff.mp hsame))

end Denoting

section Chosen
variable {env : Environment} {roots : List String} {choice : Choice}

/-- A chosen datasource and its source, with how it is joined to those in front. -/
theorem Choice.Connected.source_at (h : choice.Connected env roots) {i : Nat} {d : Datasource}
    (hd : choice.chosen[i]? = some d) : ∃ source, choice.sources[i]? = some source ∧
      source.relation = d.address.text ∧ source.asName = aliasFor d ∧
      Joined (choice.chosen.take i) d source.joinOn := by
  obtain ⟨hlength, rfl⟩ := List.getElem?_eq_some_iff.mp hd
  have hsplit : choice.chosen =
      choice.chosen.take i ++ choice.chosen[i] :: choice.chosen.drop (i + 1) := by
    rw [List.getElem_cons_drop, List.take_append_drop]
  obtain ⟨source, hsource, hrest⟩ := h.joined hsplit
  rw [List.length_take_of_le hlength.le] at hsource
  exact ⟨source, hsource, hrest⟩

theorem Choice.Connected.forall₂_sources (h : choice.Connected env roots) :
    List.Forall₂ (fun (source : PlanSource) d => source.relation = d.address.text ∧
      source.asName = aliasFor d) choice.sources choice.chosen := by
  refine List.forall₂_iff_get.mpr ⟨h.placed, fun i hi hi' => ?_⟩
  obtain ⟨source, hsource, hrelation, halias, -⟩ :=
    h.source_at (List.getElem?_eq_getElem hi')
  obtain ⟨_, rfl⟩ := List.getElem?_eq_some_iff.mp hsource
  exact ⟨hrelation, halias⟩

theorem Choice.Connected.aliases (h : choice.Connected env roots) :
    choice.sources.map PlanSource.asName = choice.chosen.map aliasFor := by
  rw [← List.forall₂_eq_eq_eq, List.forall₂_map_left_iff, List.forall₂_map_right_iff]
  exact h.forall₂_sources.imp fun _ _ hd => hd.2

open Sql

theorem refers_columnRef {d : Datasource} {sources : List Datasource} (hd : d ∈ sources)
    {b : ColumnBinding} (hb : b ∈ d.columns) :
    Refers (Belongs sources) Breaks (columnRef (aliasFor d) b.column).toList :=
  ⟨_, finds_columnRef (aliasFor d) b.column,
    List.forall_mem_singleton.mpr ⟨d, hd, rfl, b, hb, rfl⟩⟩

/-- What is read for a concept is a column of a chosen datasource. -/
theorem Choice.Connected.refers_bound (h : choice.Connected env roots) {a text : String}
    (ha : choice.bindings.get? a = some text) :
    Refers (Belongs choice.chosen) Breaks text.toList := by
  rw [h.bound a] at ha
  obtain ⟨d, hd, hcolumn⟩ := List.exists_of_findSome?_eq_some ha
  obtain ⟨b, hb, rfl⟩ := columnIn_eq_some.mp hcolumn
  exact refers_columnRef hd (Datasource.columnFor?_eq_some hb).1

theorem Choice.Connected.refers_joinOn (h : choice.Connected env roots) {source : PlanSource}
    (hsource : source ∈ choice.sources) {pair : String × String} (hpair : pair ∈ source.joinOn) :
    Refers (Belongs choice.chosen) Breaks pair.1.toList ∧
      Refers (Belongs choice.chosen) Breaks pair.2.toList := by
  obtain ⟨i, hi⟩ := List.mem_iff_getElem?.mp hsource
  obtain ⟨hlength, -⟩ := List.getElem?_eq_some_iff.mp hi
  rw [h.placed] at hlength
  obtain ⟨source', hsource', -, -, hjoined⟩ := h.source_at (List.getElem?_eq_getElem hlength)
  obtain rfl := Option.some.inj (hi.symm.trans hsource')
  have hfront : choice.chosen.take i ≠ [] := by
    intro hnil
    rw [hjoined.first hnil] at hpair
    cases hpair
  obtain ⟨-, partner, hpartner, hall⟩ := hjoined.later hfront
  obtain ⟨left, hleft, right, hright, -, rfl⟩ := hall pair hpair
  exact ⟨refers_columnRef (List.mem_of_mem_take hpartner) hleft,
    refers_columnRef (List.getElem_mem hlength) hright⟩

/-- The join of a source behind another one is written with a column behind its alias. -/
theorem Choice.Connected.exists_joinOn (h : choice.Connected env roots) {i j : Nat} (hij : i < j)
    {d : Datasource} (hd : choice.chosen[j]? = some d) :
    ∃ source ∈ choice.sources, ∃ pair ∈ source.joinOn, ∃ column,
      references pair.2.toList = [(aliasFor d, column)] := by
  obtain ⟨source, hsource, -, -, hjoined⟩ := h.source_at hd
  obtain ⟨hlength, -⟩ := List.getElem?_eq_some_iff.mp hd
  have hfront : choice.chosen.take j ≠ [] := by
    rw [← List.length_pos_iff, List.length_take_of_le hlength.le]
    omega
  obtain ⟨hpairs, partner, -, hall⟩ := hjoined.later hfront
  obtain ⟨pair, hpair⟩ := List.exists_mem_of_ne_nil _ hpairs
  obtain ⟨left, -, right, -, -, rfl⟩ := hall pair hpair
  exact ⟨source, List.mem_of_getElem? hsource, _, hpair, right.column,
    (finds_columnRef _ _).references_eq⟩

end Chosen

section Texts
open Sql
variable {scope : Scope} {sources : List PlanSource} {s : Select} {plan : Plan}
  {good : String × String → Prop}

theorem refers_ordering {sql : String} (h : Refers good Breaks sql.toList) (descending : Bool) :
    Refers good Breaks (sql ++ if descending then " DESC" else " ASC").toList := by
  rw [String.toList_append]
  cases descending
  · exact h.append (refers_quoteless (by decide)).breaking fun rest _ => breaks_blank _
  · exact h.append (refers_quoteless (by decide)).breaking fun rest _ => breaks_blank _

/-- All texts of a plan refer to good columns, if joins and concepts do. -/
theorem refers_texts (hover : planOver scope sources s = .ok plan)
    (hcall : scope.call = DuckDb.call) (henv : scope.env.Formed) (hs : s.Formed)
    (hcolumns : ∀ a text, scope.bindings.get? a = some text → Refers good Breaks text.toList)
    (hjoins : ∀ source ∈ sources, ∀ pair ∈ source.joinOn,
      Refers good Breaks pair.1.toList ∧ Refers good Breaks pair.2.toList) :
    ∀ text ∈ plan.texts, Refers good Breaks text.toList := by
  obtain ⟨planned, condition, orderBy, hplanned, horderBy, hcondition, rfl⟩ := planOver_eq_ok hover
  have hexpr : ∀ e ∈ s.exprs, ∀ sql, scope.exprSql e = .ok sql → Refers good Breaks sql.toList :=
    fun e he sql hsql => Scope.refers_of_exprSql hcall henv hcolumns (hs e he) hsql
  have hitem : ∀ p ∈ planned, Refers good Breaks p.sql.toList := by
    intro p hp
    obtain ⟨i, hi, hplans⟩ := exists_mem_of_forall₂ hplanned hp
    have hmem : Expr.concept i.concept ∈ s.exprs := List.mem_append_left _ (List.mem_map_of_mem hi)
    exact hexpr _ hmem _ hplans.sql
  have hfilter : ∀ text ∈ condition.toList, Refers good Breaks text.toList := by
    intro text htext
    obtain rfl := Option.mem_toList.mp htext
    obtain ⟨e, he, hsql⟩ := Option.map_eq_some_iff.mp hcondition
    exact hexpr e (by simp [Select.exprs, he]) text hsql
  intro text htext
  simp only [texts, List.mem_append, List.mem_flatMap, List.mem_map] at htext
  rcases htext with ⟨source, hsource, pair, hpair, htext⟩ | ⟨column, hcolumn, rfl⟩ | htext | htext |
    htext | htext
  · obtain ⟨hleft, hright⟩ := hjoins source hsource pair hpair
    simp only [List.mem_cons, List.not_mem_nil, or_false] at htext
    rcases htext with rfl | rfl
    · exact hleft
    · exact hright
  · obtain ⟨p, hp, rfl⟩ := List.mem_map.mp hcolumn
    exact hitem p (List.mem_filter.mp hp).1
  · split at htext
    · cases htext
    · exact hfilter text htext
  · obtain ⟨-, p, hp, -, rfl⟩ := mem_grouping.mp htext
    exact hitem p hp
  · split at htext
    · exact hfilter text htext
    · cases htext
  · obtain ⟨o, ho, sql, hsql, rfl⟩ :=
      exists_mem_of_forall₂ (forall₂_planOrdering horderBy) htext
    refine refers_ordering (hexpr o.expr ?_ sql hsql) o.descending
    simp only [Select.exprs, List.mem_append, List.mem_map]
    exact .inr (.inr ⟨o, ho, rfl⟩)

theorem mem_texts_of_joinOn {source : PlanSource} (hsource : source ∈ plan.sources)
    {pair : String × String} (hpair : pair ∈ source.joinOn) : pair.2 ∈ plan.texts := by
  refine List.mem_append_left _ (List.mem_flatMap.mpr ⟨source, hsource, ?_⟩)
  exact List.mem_flatMap.mpr ⟨pair, hpair, by simp⟩

/-- What belongs to a source denotes one source only, as long as no alias occurs twice. If one
does, the join of the later source is written with columns of two sources. -/
theorem Choice.Connected.nodup_iff_denotesOne {env : Environment} {roots : List String}
    {choice : Choice} (h : choice.Connected env roots) (hsources : plan.sources = choice.sources)
    (hbelongs : ∀ text ∈ plan.texts, ∀ ref ∈ references text.toList, Belongs choice.chosen ref) :
    (choice.chosen.map aliasFor).Nodup ↔
      ∀ text ∈ plan.texts, ∀ ref ∈ references text.toList, DenotesOne choice.chosen ref := by
  constructor
  · intro hnodup text htext ref href
    exact (hbelongs text htext ref href).denotesOne hnodup
  · intro hall
    rw [List.Nodup, List.pairwise_map, List.pairwise_iff_getElem]
    intro i j hi hj hij hsame
    -- the later one of two sources is joined, and so its alias is written
    have hd := List.getElem?_eq_getElem hi
    have he := List.getElem?_eq_getElem hj
    obtain ⟨source, hsource, pair, hpair, column, hrefs⟩ := h.exists_joinOn hij he
    have htext : pair.2 ∈ plan.texts := mem_texts_of_joinOn (hsources ▸ hsource) hpair
    have hone := hall pair.2 htext (aliasFor choice.chosen[j], column) (by rw [hrefs]; simp)
    exact absurd (hone.index_eq hd he hsame rfl) hij.ne

/-- The sources of a plan that is made, and the datasources that were chosen for them. -/
theorem choice_of_planSelect {call : CallWriter} {env : Environment} {p p' : Planner}
    (h : (planSelect call env s).run p = .ok (plan, p')) :
    ∃ (roots : List String) (choice : Choice), choice.Covers env roots ∧ p' = ⟨choice.bindings⟩ ∧
      plan.sources = choice.sources ∧
      planOver (p'.scope call env) choice.sources s = .ok plan := by
  rw [run_planSelect] at h
  obtain ⟨roots, -, h⟩ := except_bind_eq_ok.mp h
  obtain ⟨choice, hchoice, h⟩ := except_bind_eq_ok.mp h
  obtain ⟨plan', hover, h⟩ := except_bind_eq_ok.mp h
  obtain ⟨rfl, rfl⟩ := Prod.mk.inj (Except.ok.inj h)
  obtain ⟨planned, condition, orderBy, -, -, -, hplan⟩ := planOver_eq_ok hover
  exact ⟨roots, choice, covers_of_chooseSources hchoice, rfl, by rw [hplan], hover⟩

end Texts
end Plan

open Plan Compile

/-- The sources of a planned query are different datasources, and each column in its texts
belongs to one of them. No alias occurs twice exactly if no two of their identifiers differ in
dots and underscores only, and exactly if each column in the texts denotes one source. -/
theorem Compilation.aliases_nodup_iff {load : Loader} {depth : Nat} {stack : List String}
    {text : String} {tree : Tree Leaf} {c : Compilation} (hparse : parse text = .ok tree)
    (hrun : Compilation.run (compileModule load depth stack) .initial text tree = c)
    (hresolved : c.error = none) {st : Statement} (hst : st ∈ c.statements) {s : Select}
    (hs : s ∈ st.selects) {p p' : Planner} {plan : Plan}
    (hplan : (planSelect DuckDb.call c.env s).run p = .ok (plan, p')) :
    ∃ chosen : List Datasource, (∀ d ∈ chosen, d ∈ c.env.datasources.values) ∧
      (chosen.map Datasource.identifier).Nodup ∧
      List.Forall₂ (fun (source : PlanSource) d => source.relation = d.address.text ∧
        source.asName = aliasFor d) plan.sources chosen ∧
      (∀ sql ∈ plan.texts, ∀ ref ∈ Sql.references sql.toList, Belongs chosen ref) ∧
      ((plan.sources.map PlanSource.asName).Nodup ↔ ∀ d ∈ chosen, ∀ e ∈ chosen,
        List.Forall₂ SameUndotted d.identifier.toList e.identifier.toList →
          d.identifier = e.identifier) ∧
      ((plan.sources.map PlanSource.asName).Nodup ↔ ∀ sql ∈ plan.texts,
        ∀ ref ∈ Sql.references sql.toList, DenotesOne chosen ref) := by
  subst hrun
  obtain ⟨henv, hformed⟩ := Compilation.formed_of_run hparse hresolved
  obtain ⟨roots, choice, hcovers, rfl, hsources, hover⟩ := choice_of_planSelect hplan
  have hconnected := hcovers.toConnected
  have hrefers := refers_texts hover rfl henv (hformed st hst s hs)
    (fun _ _ => hconnected.refers_bound) fun _ hsource _ => hconnected.refers_joinOn hsource
  have hbelongs : ∀ sql ∈ plan.texts, ∀ ref ∈ Sql.references sql.toList,
      Belongs choice.chosen ref := fun sql hsql => (hrefers sql hsql).forall_references
  rw [hsources, hconnected.aliases]
  exact ⟨choice.chosen, hconnected.known, hconnected.distinct, hconnected.forall₂_sources, hbelongs,
    aliases_nodup_iff_identifiers hconnected.distinct,
    hconnected.nodup_iff_denotesOne hsources hbelongs⟩

/-- Two properties of `x`, each in a datasource of its own. -/
def sidesOf (left right : String) : String :=
  "key x int;\nproperty x.y int;\nproperty x.z int;\n" ++
    "datasource " ++ left ++ " (x, y) address t;\n" ++
    "datasource " ++ right ++ " (x, z) address u;\nselect y, z;"

/-- Different aliases, although one identifier has a dot. -/
theorem Compilation.aliases_nodup_iff_dotted :
    ∃ tree c, parse (sidesOf "a" "a.b") = .ok tree ∧
      Compilation.run (compileModule (Library.mk [] id).load 0 []) .initial
        (sidesOf "a" "a.b") tree = c ∧
      c.error = none ∧ ∃ st ∈ c.statements, ∃ s ∈ st.selects, ∃ plan p,
        (planSelect DuckDb.call c.env s).run {} = .ok (plan, p) ∧
        plan.sources.map PlanSource.asName = ["a", "a_b"] ∧
        ∃ chosen : List Datasource,
          List.Forall₂ (fun (source : PlanSource) d => source.relation = d.address.text ∧
            source.asName = aliasFor d) plan.sources chosen ∧
          ∀ sql ∈ plan.texts, ∀ ref ∈ Sql.references sql.toList, DenotesOne chosen ref := by
  obtain ⟨tree, c, hparse, hrun, hresolved, st, hst, s, hs, plan, p, hplan, hcheck⟩ :=
    Compilation.exists_plan (sidesOf "a" "a.b")
      (fun _ _ plan _ => decide (plan.sources.map PlanSource.asName = ["a", "a_b"]))
      (by apply exists_tree; decide +kernel)
  have haliases := of_decide_eq_true hcheck
  obtain ⟨chosen, -, -, hchosen, -, -, hdenote⟩ :=
    Compilation.aliases_nodup_iff hparse hrun hresolved hst hs hplan
  have hnodup : (plan.sources.map PlanSource.asName).Nodup := by
    rw [haliases]
    decide
  exact ⟨tree, c, hparse, hrun, hresolved, st, hst, s, hs, plan, p, hplan, haliases, chosen,
    hchosen, hdenote.mp hnodup⟩

/-- Two tables with one alias: what is to join them equates a column with itself, as it is
written. -/
theorem Compilation.aliases_clash :
    ∃ tree c, parse (sidesOf "a.b" "a_b") = .ok tree ∧
      Compilation.run (compileModule (Library.mk [] id).load 0 []) .initial
        (sidesOf "a.b" "a_b") tree = c ∧
      c.error = none ∧ ∃ st ∈ c.statements, ∃ s ∈ st.selects, ∃ plan p,
        (planSelect DuckDb.call c.env s).run {} = .ok (plan, p) ∧
        plan.sources = [⟨"t", "a_b", []⟩,
          ⟨"u", "a_b", [("\"a_b\".\"x\"", "\"a_b\".\"x\"")]⟩] ∧
        ¬ (plan.sources.map PlanSource.asName).Nodup := by
  obtain ⟨tree, c, hparse, hrun, hresolved, st, hst, s, hs, plan, p, hplan, hcheck⟩ :=
    Compilation.exists_plan (sidesOf "a.b" "a_b")
      (fun _ _ plan _ => decide (plan.sources = [⟨"t", "a_b", []⟩,
        ⟨"u", "a_b", [("\"a_b\".\"x\"", "\"a_b\".\"x\"")]⟩]))
      (by apply exists_tree; decide +kernel)
  have hsources := of_decide_eq_true hcheck
  refine ⟨tree, c, hparse, hrun, hresolved, st, hst, s, hs, plan, p, hplan, hsources, ?_⟩
  rw [hsources]
  decide

end ConceptQuery
