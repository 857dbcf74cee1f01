import ConceptQuery.Proofs.Cover
import ConceptQuery.Proofs.Grouping
import ConceptQuery.Proofs.Roots

/-! # Why planning fails

Three walks through the lineages have to agree on what is read and what is computed: the
search for roots, the choice of sources and the writing of texts. If something is missing
that the select needs, the first says so; if the roots cannot be covered, the second
does; after that every concept that is met has a column or a lineage, and only a call
that cannot be written is left to fail.
-/
namespace ConceptQuery

/-- The error of a call with a wrong number of arguments. -/
def RenderError.IsArity (e : RenderError) : Prop :=
  ∃ function expected found, e = .arity function expected found

/-- The error of roots that the datasources do not cover. -/
def RenderError.IsUncovered (e : RenderError) : Prop :=
  (∃ concept, e = .noDatasource concept) ∨ ∃ datasource, e = .noJoinPath datasource

theorem RenderError.not_isArity_unknownConcept {a : String} :
    ¬ (RenderError.unknownConcept a).IsArity := by
  rintro ⟨function, expected, found, ⟨⟩⟩

theorem RenderError.not_isUncovered_unknownConcept {a : String} :
    ¬ (RenderError.unknownConcept a).IsUncovered := by
  rintro (⟨concept, ⟨⟩⟩ | ⟨datasource, ⟨⟩⟩)

theorem RenderError.IsUncovered.not_isArity {e : RenderError} (h : e.IsUncovered) :
    ¬ e.IsArity := by
  rintro ⟨function, expected, found, rfl⟩
  rcases h with ⟨concept, ⟨⟩⟩ | ⟨datasource, ⟨⟩⟩

theorem DuckDb.isArity_of_call {function : String} {arguments : List String} {e : RenderError}
    (h : DuckDb.call function arguments = .error e) : e.IsArity := by
  have harity : ∀ {expected : String} {ok : Bool} {sql : String},
      withArity function expected arguments ok sql = .error e → e.IsArity := by
    intro expected ok sql h
    unfold withArity at h
    split at h
    · cases h
    · exact ⟨function, expected, arguments.length, (Except.error.inj h).symm⟩
  unfold DuckDb.call at h
  dsimp only at h
  split at h <;> first | exact harity h | cases h

namespace Plan
open Environment Relation

section Texts
variable {call : CallWriter} {f : String → Except RenderError String} {err : RenderError}

/-- Some call cannot be written. -/
def CallFails (call : CallWriter) (e : RenderError) : Prop :=
  ∃ function arguments, call function arguments = .error e

mutual
/-- An expression has no text only if a concept in it has none or a call fails. -/
theorem error_of_exprSql (e : Expr) (h : exprSql call f e = .error err) :
    (∃ a ∈ e.mentions, f a = .error err) ∨ CallFails call err := by
  cases e with
  | concept address => exact .inl ⟨address, List.mem_singleton_self address, h⟩
  | literal value => cases h
  | type datatype => cases h
  | call function arguments =>
    rw [exprSql] at h
    rcases except_bind_eq_error.mp h with h | ⟨texts, -, h⟩
    · exact error_of_exprSqls arguments h
    · exact .inr ⟨function, texts, h⟩
  | binary op lhs rhs =>
    rw [exprSql] at h
    rcases except_bind_eq_error.mp h with h | ⟨left, -, h⟩
    · exact (error_of_exprSql lhs h).imp_left fun ⟨a, ha, hf⟩ => ⟨a, List.mem_append_left _ ha, hf⟩
    · rcases except_bind_eq_error.mp h with h | ⟨right, -, h⟩
      · exact (error_of_exprSql rhs h).imp_left fun ⟨a, ha, hf⟩ =>
          ⟨a, List.mem_append_right _ ha, hf⟩
      · cases h
  | unary op operand =>
    cases op with
    | not =>
      rw [exprSql] at h
      rcases except_bind_eq_error.mp h with h | ⟨text, -, h⟩
      · exact error_of_exprSql operand h
      · cases h
    | neg =>
      rw [exprSql] at h
      rcases except_bind_eq_error.mp h with h | ⟨text, -, h⟩
      · exact error_of_exprSql operand h
      · cases h
  | isNull operand negated =>
    rw [exprSql] at h
    rcases except_bind_eq_error.mp h with h | ⟨text, -, h⟩
    · exact error_of_exprSql operand h
    · cases h
  | inList operand items negated =>
    rw [exprSql] at h
    rcases except_bind_eq_error.mp h with h | ⟨texts, -, h⟩
    · exact (error_of_exprSqls items h).imp_left fun ⟨a, ha, hf⟩ =>
        ⟨a, List.mem_append_right _ ha, hf⟩
    · rcases except_bind_eq_error.mp h with h | ⟨text, -, h⟩
      · exact (error_of_exprSql operand h).imp_left fun ⟨a, ha, hf⟩ =>
          ⟨a, List.mem_append_left _ ha, hf⟩
      · cases h
  | paren inner =>
    rw [exprSql] at h
    rcases except_bind_eq_error.mp h with h | ⟨text, -, h⟩
    · exact error_of_exprSql inner h
    · cases h

theorem error_of_exprSqls (es : List Expr) (h : exprSqls call f es = .error err) :
    (∃ a ∈ Expr.mentionsAll es, f a = .error err) ∨ CallFails call err := by
  cases es with
  | nil => cases h
  | cons e es =>
    rw [exprSqls] at h
    rcases except_bind_eq_error.mp h with h | ⟨first, -, h⟩
    · exact (error_of_exprSql e h).imp_left fun ⟨a, ha, hf⟩ => ⟨a, List.mem_append_left _ ha, hf⟩
    · rcases except_bind_eq_error.mp h with h | ⟨more, -, h⟩
      · exact (error_of_exprSqls es h).imp_left fun ⟨a, ha, hf⟩ =>
          ⟨a, List.mem_append_right _ ha, hf⟩
      · cases h
end

end Texts

namespace Scope
variable {scope : Scope} {select : Select} {a b : String} {err : RenderError}

/-- The text of the one concept is made from that of the other. -/
def Opens (scope : Scope) (a b : String) : Prop :=
  scope.bindings.get? a = none ∧ scope.env.Uses a b

/-- An address that writing the texts of a select comes to. -/
def Meets (scope : Scope) (select : Select) (a : String) : Prop :=
  ∃ start ∈ select.mentions, ReflTransGen scope.Opens start a

/-- The concept has a column, or a lineage to be computed by. -/
def Supplied (scope : Scope) (a : String) : Prop :=
  (∃ sql, scope.bindings.get? a = some sql) ∨
    ∃ c lineage, scope.env.concept? a = some c ∧ c.lineage = some lineage

/-- Where all that is met is supplied, a concept has no text only if a call fails. -/
theorem callFails_of_conceptSqlWithin (h : scope.env.Acyclic) {depth : Nat}
    (hdepth : scope.env.height a < depth)
    (hmet : ∀ b, ReflTransGen scope.Opens a b → scope.Supplied b)
    (herror : scope.conceptSqlWithin depth a = .error err) : CallFails scope.call err := by
  induction depth generalizing a with
  | zero => omega
  | succ depth ih =>
    rcases hmet a .refl with ⟨sql, hsql⟩ | ⟨c, lineage, hc, hlineage⟩
    · rw [conceptSqlWithin, hsql] at herror
      cases herror
    · cases hfree : scope.bindings.get? a with
      | some sql =>
        rw [conceptSqlWithin, hfree] at herror
        cases herror
      | none =>
        have hopens : ∀ b ∈ lineage.mentions, scope.Opens a b := fun b hb =>
          ⟨hfree, uses_of_lineage hc hlineage hb⟩
        have hlineageError :
            Plan.exprSql scope.call (scope.conceptSqlWithin depth) lineage = .error err := by
          rw [conceptSqlWithin, hfree, hc] at herror
          dsimp only at herror
          rw [hlineage] at herror
          cases lineage with
          | binary op lhs rhs =>
            rcases except_bind_eq_error.mp herror with herror | ⟨text, -, herror⟩
            · exact herror
            · cases herror
          | _ => exact herror
        rcases error_of_exprSql lineage hlineageError with ⟨b, hb, hbelow⟩ | hcall
        · have hlt := h.height_lt (hopens b hb).2
          exact ih (by omega) (fun x hx => hmet x (hx.head (hopens b hb))) hbelow
        · exact hcall

theorem callFails_of_conceptSql (h : scope.env.Acyclic)
    (hmet : ∀ b, scope.Meets select b → scope.Supplied b) (ha : a ∈ select.mentions)
    (herror : scope.conceptSql a = .error err) : CallFails scope.call err := by
  have hdepth : scope.env.height a < scope.depth := Nat.lt_succ_of_le (scope.env.height_le_size a)
  exact callFails_of_conceptSqlWithin h hdepth (fun b hb => hmet b ⟨a, ha, hb⟩) herror

end Scope

section Planned
variable {scope : Scope} {select : Select} {err : RenderError}

theorem error_of_planItems {items : List SelectItem} (h : planItems scope items = .error err) :
    ∃ i ∈ items, scope.conceptSql i.concept = .error err := by
  induction items with
  | nil => cases h
  | cons item rest ih =>
    rw [planItems] at h
    rcases except_bind_eq_error.mp h with h | ⟨sql, -, h⟩
    · exact ⟨item, List.mem_cons_self, h⟩
    · rcases except_bind_eq_error.mp h with h | ⟨more, -, h⟩
      · obtain ⟨i, hi, h⟩ := ih h
        exact ⟨i, List.mem_cons_of_mem item hi, h⟩
      · cases h

theorem error_of_planOrdering {orderBy : List OrderItem}
    (h : planOrdering scope orderBy = .error err) :
    ∃ o ∈ orderBy, scope.exprSql o.expr = .error err := by
  induction orderBy with
  | nil => cases h
  | cons item rest ih =>
    rw [planOrdering] at h
    rcases except_bind_eq_error.mp h with h | ⟨sql, -, h⟩
    · exact ⟨item, List.mem_cons_self, h⟩
    · rcases except_bind_eq_error.mp h with h | ⟨more, -, h⟩
      · obtain ⟨o, ho, h⟩ := ih h
        exact ⟨o, List.mem_cons_of_mem item ho, h⟩
      · cases h

/-- A select has no plan only if a concept that it mentions has no text or a call fails. -/
theorem error_of_planOver {sources : List PlanSource}
    (h : planOver scope sources select = .error err) :
    (∃ a ∈ select.mentions, scope.conceptSql a = .error err) ∨ CallFails scope.call err := by
  have hexpr : ∀ e ∈ select.condition.toList ++ select.orderBy.map OrderItem.expr,
      scope.exprSql e = .error err →
        (∃ a ∈ select.mentions, scope.conceptSql a = .error err) ∨ CallFails scope.call err := by
    intro e he herror
    refine (error_of_exprSql e herror).imp_left fun ⟨a, ha, hf⟩ => ⟨a, ?_, hf⟩
    exact List.mem_append_right _ (List.mem_flatMap.mpr ⟨e, he, ha⟩)
  rw [planOver] at h
  rcases except_bind_eq_error.mp h with h | ⟨items, -, h⟩
  · obtain ⟨i, hi, h⟩ := error_of_planItems h
    exact .inl ⟨i.concept, List.mem_append_left _ (List.mem_map_of_mem hi), h⟩
  · have hordering : ∀ {α : Type} {rest : List String → Except RenderError α},
        (planOrdering scope select.orderBy >>= rest) = .error err →
          (∀ orderBy, rest orderBy ≠ .error err) →
          (∃ a ∈ select.mentions, scope.conceptSql a = .error err) ∨ CallFails scope.call err := by
      intro α rest h hrest
      rcases except_bind_eq_error.mp h with h | ⟨orderBy, -, h⟩
      · obtain ⟨o, ho, h⟩ := error_of_planOrdering h
        exact hexpr o.expr (List.mem_append_right _ (List.mem_map_of_mem ho)) h
      · exact absurd h (hrest orderBy)
    cases hwhere : select.condition with
    | none =>
      rw [hwhere] at h
      exact hordering h fun orderBy h => by cases h
    | some e =>
      rw [hwhere] at h
      rcases except_bind_eq_error.mp h with h | ⟨condition, -, h⟩
      · exact hexpr e (by simp [hwhere]) (except_map_eq_error.mp h)
      · exact hordering h fun orderBy h => by cases h

end Planned

section Chosen
variable {env : Environment} {call : CallWriter} {select : Select} {roots : List String}
  {choice : Choice}

theorem isUncovered_of_chooseSources {e : RenderError}
    (h : chooseSources env .empty roots = .error e) : e.IsUncovered := by
  obtain ⟨stuck, first, -, rfl⟩ := stuck_of_chooseSources h
  rcases notCovered_cases env first with ⟨hname, -⟩ | ⟨d, -, hname, -⟩
  · exact .inl ⟨first, hname⟩
  · exact .inr ⟨d.identifier, hname⟩

theorem bound_of_covers (h : choice.Covers env roots) {r : String} (hr : r ∈ roots) :
    ∃ sql, choice.bindings.get? r = some sql := by
  obtain ⟨d, hd, hbinds⟩ := h.covered r hr
  obtain ⟨sql, hsql⟩ := binds_iff_columnIn.mp hbinds
  rw [h.bound r, ← Option.isSome_iff_exists, List.findSome?_isSome_iff]
  exact ⟨d, hd, by rw [hsql]; rfl⟩

/-- What is met in writing is what the search for roots came to, and all of it is supplied. -/
theorem supplied_of_covers (hcovers : choice.Covers env roots)
    (hknown : ∀ a, Needs env select a → env.Knows a)
    (hroots : ∀ r, r ∈ roots ↔ Needs env select r ∧ IsRoot env r) {a : String}
    (hmet : (Scope.mk env call choice.bindings).Meets select a) :
    (Scope.mk env call choice.bindings).Supplied a := by
  have hneeded : ∀ {a}, Needs env select a → (∃ sql, choice.bindings.get? a = some sql) ∨
      ∃ c lineage, Computed env a c lineage := by
    intro a ha
    cases hc : env.concept? a with
    | none => exact absurd (hknown a ha) (concept?_eq_none_iff.mp hc)
    | some c =>
      refine (isRoot_or_computed hc).imp (fun hroot => ?_) fun ⟨lineage, h⟩ => ⟨c, lineage, h⟩
      exact bound_of_covers hcovers ((hroots a).mpr ⟨ha, hroot⟩)
  have hall : Needs env select a := by
    obtain ⟨start, hstart, hopens⟩ := hmet
    induction hopens with
    | refl => exact ⟨start, hstart, .refl⟩
    | tail _ hstep ih =>
      obtain ⟨hfree, huses⟩ := hstep
      rcases hneeded ih with ⟨sql, hsql⟩ | ⟨c, lineage, hcomputed⟩
      · cases hfree.symm.trans hsql
      · obtain ⟨start, hstart, hreach⟩ := ih
        exact ⟨start, hstart, hreach.tail ⟨hcomputed.free, huses⟩⟩
  exact (hneeded hall).imp_right fun ⟨c, lineage, h⟩ => ⟨c, lineage, h.concept, h.lineage⟩

end Chosen

theorem ok_bind {ε α β : Type} (a : α) (g : α → Except ε β) : (Except.ok a >>= g) = g a :=
  rfl

theorem run'_planSelect {call : CallWriter} {env : Environment} (select : Select) (p : Planner) :
    (planSelect call env select).run' p = (do
      let roots ← rootsOf env (needed select)
      let choice ← chooseSources env .empty roots
      planOver ⟨env, call, choice.bindings⟩ choice.sources select) := by
  rw [StateT.run'_eq, run_planSelect]
  simp

/-- Once the sources are chosen, only a call can fail. -/
theorem callFails_of_planOver {env : Environment} {call : CallWriter} {select : Select}
    {roots : List String} {choice : Choice} {err : RenderError} (h : env.Acyclic)
    (hcovers : choice.Covers env roots) (hknown : ∀ a, Needs env select a → env.Knows a)
    (hroots : ∀ r, r ∈ roots ↔ Needs env select r ∧ IsRoot env r)
    (herror : planOver ⟨env, call, choice.bindings⟩ choice.sources select = .error err) :
    CallFails call err := by
  rcases error_of_planOver herror with ⟨a, ha, hsql⟩ | hcall
  · exact Scope.callFails_of_conceptSql h
      (fun b hb => supplied_of_covers hcovers hknown hroots hb) ha hsql
  · exact hcall

/-- In an environment without circles, planning a select names an unknown concept exactly
if one that the select needs is missing, and then it names such a one. If none is, the
roots are those that the select needs. It complains of sources exactly if these cannot be
covered; once they are, all that is met has a column or a lineage, and only the number of
arguments of a call can be wrong. -/
theorem planSelect_refuses {env : Environment} (hacyclic : env.Acyclic) (select : Select)
    (p : Planner) :
    (∀ a, (planSelect DuckDb.call env select).run' p = .error (.unknownConcept a) →
      Needs env select a ∧ ¬ env.Knows a) ∧
    ((∃ a, Needs env select a ∧ ¬ env.Knows a) →
      ∃ a, (planSelect DuckDb.call env select).run' p = .error (.unknownConcept a)) ∧
    ((∀ a, Needs env select a → env.Knows a) →
      ∃ roots, rootsOf env (needed select) = .ok roots ∧
        (∀ r, r ∈ roots ↔ Needs env select r ∧ IsRoot env r) ∧
        (∀ e, (planSelect DuckDb.call env select).run' p = .error e ∧ e.IsUncovered ↔
          chooseSources env .empty roots = .error e) ∧
        ∀ choice, chooseSources env .empty roots = .ok choice →
          (∀ a, (Scope.mk env DuckDb.call choice.bindings).Meets select a →
            (Scope.mk env DuckDb.call choice.bindings).Supplied a) ∧
          ∀ e, (planSelect DuckDb.call env select).run' p = .error e → e.IsArity) := by
  rcases rootsOf_cases hacyclic select with ⟨roots, hroots, hknown, hmem⟩ | ⟨a, ha, hneeds, hno⟩
  · cases hchoice : chooseSources env .empty roots with
    | error e =>
      have huncovered : e.IsUncovered := isUncovered_of_chooseSources hchoice
      have hresult : (planSelect DuckDb.call env select).run' p = .error e := by
        rw [run'_planSelect, hroots, ok_bind, hchoice]
        rfl
      rw [hresult]
      refine ⟨?_, fun ⟨a, ha, hno⟩ => absurd (hknown a ha) hno, fun _ =>
        ⟨roots, hroots, hmem, fun e' => ?_, ?_⟩⟩
      · rintro a ⟨⟩
        exact absurd huncovered RenderError.not_isUncovered_unknownConcept
      · rw [hchoice, Except.error.injEq, Except.error.injEq]
        refine ⟨And.left, fun h => ⟨h, ?_⟩⟩
        rw [← h]
        exact huncovered
      · intro choice h
        cases hchoice.symm.trans h
    | ok choice =>
      have hcovers : choice.Covers env roots := covers_of_chooseSources hchoice
      have hresult : (planSelect DuckDb.call env select).run' p =
          planOver ⟨env, DuckDb.call, choice.bindings⟩ choice.sources select := by
        rw [run'_planSelect, hroots, ok_bind, hchoice, ok_bind]
      have harity : ∀ {e}, planOver ⟨env, DuckDb.call, choice.bindings⟩ choice.sources select =
          .error e → e.IsArity := by
        intro e herror
        obtain ⟨function, arguments, hcall⟩ :=
          callFails_of_planOver hacyclic hcovers hknown hmem herror
        exact DuckDb.isArity_of_call hcall
      rw [hresult]
      refine ⟨fun a ha => ?_, fun ⟨a, ha, hno⟩ => absurd (hknown a ha) hno, fun _ =>
        ⟨roots, hroots, hmem, fun e => ⟨fun ⟨h, huncovered⟩ => ?_, fun h => ?_⟩, ?_⟩⟩
      · exact absurd (harity ha) RenderError.not_isArity_unknownConcept
      · exact absurd (harity h) huncovered.not_isArity
      · cases hchoice.symm.trans h
      · intro choice' h
        obtain rfl := Except.ok.inj (hchoice.symm.trans h)
        exact ⟨fun a hmet => supplied_of_covers hcovers hknown hmem hmet, fun e => harity⟩
  · have hresult : (planSelect DuckDb.call env select).run' p = .error (.unknownConcept a) := by
      rw [run'_planSelect, ha]
      rfl
    rw [hresult]
    refine ⟨?_, fun _ => ⟨a, rfl⟩, fun hknown => absurd (hknown a hneeds) hno⟩
    rintro b ⟨⟩
    exact ⟨hneeds, hno⟩

/-- Orders with a quantity that is read, an amount that is computed from it and from a
price that is missing, and a year of it that has an argument too many. -/
def unpricedOrders : Environment :=
  { Environment.initial with
    concepts := ⟨[
      ("local.quantity",
        { name := "quantity", space := "local", datatype := .integer, purpose := .property }),
      ("local.amount", Concept.derived "amount" "local" .property .integer
        (.binary .mul (.concept "local.quantity") (.concept "local.price"))),
      ("local.since", Concept.derived "since" "local" .property .integer
        (.call "year" [.concept "local.quantity", .literal (.number "2")]))]⟩
    datasources := ⟨[("orders",
      { name := "orders", space := "local", columns := [⟨"quantity", "local.quantity"⟩], grain := []
        address := .table "orders", isRoot := false })]⟩ }

def selectOf (a : String) : Select :=
  ⟨[⟨a, false⟩], none, [], none, none⟩

/-- The amount leads to the missing price. The year needs nothing that is missing, its
sources are chosen, and what is left to fail is the call. -/
theorem planSelect_refuses_unpricedOrders :
    unpricedOrders.Acyclic ∧
    (planSelect DuckDb.call unpricedOrders (selectOf "local.amount")).run' {} =
      .error (.unknownConcept "local.price") ∧
    Needs unpricedOrders (selectOf "local.amount") "local.price" ∧
    (planSelect DuckDb.call unpricedOrders (selectOf "local.since")).run' {} =
      .error (.arity "year" "1" 2) ∧
    ∀ a, Needs unpricedOrders (selectOf "local.since") a → unpricedOrders.Knows a := by
  have hacyclic : unpricedOrders.Acyclic := by
    apply acyclic_of_rank fun a => if a = "local.quantity" ∨ a = "local.price" then 0 else 1
    decide
  have hprice : (planSelect DuckDb.call unpricedOrders (selectOf "local.amount")).run' {} =
      .error (.unknownConcept "local.price") := by decide +kernel
  have hyear : (planSelect DuckDb.call unpricedOrders (selectOf "local.since")).run' {} =
      .error (.arity "year" "1" 2) := by decide +kernel
  obtain ⟨hunknown, -, -⟩ := planSelect_refuses hacyclic (selectOf "local.amount") {}
  obtain ⟨-, hmissing, -⟩ := planSelect_refuses hacyclic (selectOf "local.since") {}
  refine ⟨hacyclic, hprice, (hunknown _ hprice).1, hyear, fun a ha => ?_⟩
  by_contra hno
  obtain ⟨b, hb⟩ := hmissing ⟨a, ha, hno⟩
  cases hb.symm.trans hyear

end Plan
end ConceptQuery
