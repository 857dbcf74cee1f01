import Mathlib.Data.List.Forall2
import ConceptQuery.Dialect.DuckDb
import ConceptQuery.Lens

/-! # One planner for many statements

All statements of a run are planned by one planner, and so are the parts of merged
selects. What it knows of the columns of one select must not reach the next.
`Planning.Fresh` says that what a step gives does not depend on the planner that it
meets. Planning a select is fresh, since it forgets first, and so is any sequence of
fresh steps; such a sequence gives what its members give one by one.
-/
namespace ConceptQuery

/-- The error of the first member that fails, all before it being fine. -/
def FirstError {ε α β : Type} (f : α → Except ε β) (xs : List α) (e : ε) : Prop :=
  ∃ front x back, xs = front ++ x :: back ∧ (∀ y ∈ front, ∃ b, f y = .ok b) ∧ f x = .error e

section Sequences
variable {ε α β γ : Type} {f : α → Except ε β} {xs : List α}

theorem except_bind_eq_ok {x : Except ε α} {g : α → Except ε β} {b : β} :
    (x >>= g) = .ok b ↔ ∃ a, x = .ok a ∧ g a = .ok b := by
  cases x with
  | ok a => simp [bind, Except.bind]
  | error e => simp [bind, Except.bind]

theorem except_bind_eq_error {x : Except ε α} {g : α → Except ε β} {e : ε} :
    (x >>= g) = .error e ↔ x = .error e ∨ ∃ a, x = .ok a ∧ g a = .error e := by
  cases x with
  | ok a => simp [bind, Except.bind]
  | error e => simp [bind, Except.bind]

theorem except_map_eq_ok {x : Except ε α} {g : α → β} {b : β} :
    g <$> x = .ok b ↔ ∃ a, x = .ok a ∧ g a = b := by
  cases x with
  | ok a => simp [Functor.map, Except.map]
  | error e => simp [Functor.map, Except.map]

theorem except_map_eq_error {x : Except ε α} {g : α → β} {e : ε} :
    g <$> x = .error e ↔ x = .error e := by
  cases x with
  | ok a => simp [Functor.map, Except.map]
  | error e' => simp [Functor.map, Except.map]

theorem mapM_eq_ok_iff {ys : List β} :
    xs.mapM f = .ok ys ↔ List.Forall₂ (fun x y => f x = .ok y) xs ys := by
  induction xs generalizing ys with
  | nil =>
    rw [List.mapM_nil, List.forall₂_nil_left_iff]
    exact ⟨fun h => (Except.ok.inj h).symm, fun h => h ▸ rfl⟩
  | cons x xs ih =>
    rw [List.mapM_cons, List.forall₂_cons_left_iff, except_bind_eq_ok]
    constructor
    · rintro ⟨y, hy, h⟩
      obtain ⟨more, hmore, h⟩ := except_bind_eq_ok.mp h
      exact ⟨y, more, hy, ih.mp hmore, (Except.ok.inj h).symm⟩
    · rintro ⟨y, more, hy, hmore, rfl⟩
      exact ⟨y, hy, except_bind_eq_ok.mpr ⟨more, ih.mpr hmore, rfl⟩⟩

theorem mapM_eq_error_iff {e : ε} : xs.mapM f = .error e ↔ FirstError f xs e := by
  induction xs with
  | nil =>
    constructor
    · intro h
      cases h
    · rintro ⟨front, x, back, hsplit, -⟩
      simp at hsplit
  | cons x xs ih =>
    rw [List.mapM_cons]
    cases hx : f x with
    | error e' =>
      constructor
      · intro h
        obtain rfl : e' = e := Except.error.inj h
        exact ⟨[], x, xs, rfl, by simp, hx⟩
      · rintro ⟨front, y, back, hsplit, hfront, hy⟩
        cases front with
        | nil =>
          obtain ⟨rfl, rfl⟩ := List.cons.inj hsplit
          exact congrArg Except.error (Except.error.inj (hx.symm.trans hy))
        | cons z front =>
          obtain ⟨rfl, rfl⟩ := List.cons.inj hsplit
          obtain ⟨b, hb⟩ := hfront _ List.mem_cons_self
          cases hx.symm.trans hb
    | ok b =>
      have hrest : (do let y ← Except.ok b; let ys ← xs.mapM f; pure (y :: ys)) =
          (b :: ·) <$> xs.mapM f := rfl
      rw [hrest, except_map_eq_error, ih]
      constructor
      · rintro ⟨front, y, back, rfl, hfront, hy⟩
        refine ⟨x :: front, y, back, rfl, ?_, hy⟩
        exact List.forall_mem_cons.mpr ⟨⟨b, hx⟩, hfront⟩
      · rintro ⟨front, y, back, hsplit, hfront, hy⟩
        cases front with
        | nil =>
          obtain ⟨rfl, rfl⟩ := List.cons.inj hsplit
          cases hx.symm.trans hy
        | cons z front =>
          obtain ⟨rfl, rfl⟩ := List.cons.inj hsplit
          exact ⟨front, y, back, rfl, (List.forall_mem_cons.mp hfront).2, hy⟩

theorem exists_mapM_eq_ok_iff : (∃ ys, xs.mapM f = .ok ys) ↔ ∀ x ∈ xs, ∃ y, f x = .ok y := by
  constructor
  · rintro ⟨ys, h⟩
    have hall := mapM_eq_ok_iff.mp h
    clear h
    induction hall with
    | nil => simp
    | cons hx _ ih => exact List.forall_mem_cons.mpr ⟨⟨_, hx⟩, ih⟩
  · intro h
    cases hresult : xs.mapM f with
    | ok ys => exact ⟨ys, rfl⟩
    | error e =>
      obtain ⟨front, x, back, rfl, -, hx⟩ := mapM_eq_error_iff.mp hresult
      obtain ⟨y, hy⟩ := h x (by simp)
      cases hx.symm.trans hy

end Sequences

namespace Plan

section Freshness
variable {α β : Type}

/-- The step gives the same from every planner. -/
def Planning.Fresh (step : Planning α) : Prop :=
  ∀ p q, step.run' p = step.run' q

theorem Planning.fresh_pure (a : α) : Planning.Fresh (pure a : Planning α) :=
  fun _ _ => rfl

/-- In front of a fresh step only the result counts, not the planner that is left. -/
theorem Planning.run'_bind {step : Planning α} {next : α → Planning β}
    (h : ∀ a, Planning.Fresh (next a)) (p : Planner) :
    (step >>= next).run' p = step.run' p >>= fun a => (next a).run' {} := by
  rw [StateT.run'_eq, StateT.run'_eq, StateT.run_bind]
  cases hstep : step.run p with
  | error e => rfl
  | ok result =>
    have hnext := h result.1 result.2 {}
    rw [StateT.run'_eq, StateT.run'_eq] at hnext
    exact hnext

theorem Planning.Fresh.bind {step : Planning α} {next : α → Planning β} (hs : step.Fresh)
    (hn : ∀ a, Planning.Fresh (next a)) : Planning.Fresh (step >>= next) := by
  intro p q
  rw [Planning.run'_bind hn, Planning.run'_bind hn, hs p q]

theorem Planning.fresh_mapM {f : α → Planning β} (h : ∀ x, (f x).Fresh) (xs : List α) :
    Planning.Fresh (xs.mapM f) := by
  induction xs with
  | nil => exact Planning.fresh_pure []
  | cons x xs ih =>
    rw [List.mapM_cons]
    exact (h x).bind fun y => ih.bind fun ys => Planning.fresh_pure (y :: ys)

/-- Fresh steps in a row give what each of them gives to a new planner. -/
theorem Planning.run'_mapM {f : α → Planning β} (h : ∀ x, (f x).Fresh) (xs : List α)
    (p : Planner) : (xs.mapM f).run' p = xs.mapM fun x => (f x).run' {} := by
  induction xs generalizing p with
  | nil => rfl
  | cons x xs ih =>
    have hrest : ∀ y, Planning.Fresh (do let ys ← xs.mapM f; pure (y :: ys)) := fun y =>
      (Planning.fresh_mapM h xs).bind fun ys => Planning.fresh_pure (y :: ys)
    rw [List.mapM_cons, List.mapM_cons, Planning.run'_bind hrest, h x p {}]
    congr 1
    funext y
    rw [Planning.run'_bind fun ys => Planning.fresh_pure (y :: ys), ih]
    rfl

end Freshness

section Statements
variable {call : CallWriter} {env : Environment}

/-- Whatever the planner held, planning a select starts with no columns. -/
theorem run_planSelect (select : Select) (p : Planner) : (planSelect call env select).run p = do
    let roots ← rootsOf env (needed select)
    let choice ← chooseSources env .empty roots
    let plan ← planOver ⟨env, call, choice.bindings⟩ choice.sources select
    return (plan, ⟨choice.bindings⟩) := by
  simp [planSelect]

theorem fresh_planSelect (select : Select) : (planSelect call env select).Fresh := by
  intro p q
  rw [StateT.run'_eq, StateT.run'_eq, run_planSelect, run_planSelect]

theorem planSelects_eq_mapM (selects : List Select) :
    planSelects call env selects = selects.mapM (planSelect call env) := by
  induction selects with
  | nil => rfl
  | cons s rest ih => rw [planSelects, ih, List.mapM_cons]

theorem fresh_form? (s : Statement) : (form? call env s).Fresh := by
  cases s with
  | select s => exact (fresh_planSelect s).bind fun _ => Planning.fresh_pure _
  | persist datasource table s line =>
    exact (fresh_planSelect s).bind fun _ => Planning.fresh_pure _
  | multiSelect selects align line =>
    rw [form?, planSelects_eq_mapM]
    exact (Planning.fresh_mapM fresh_planSelect selects).bind fun _ => Planning.fresh_pure _
  | rawSql text line => exact Planning.fresh_pure _
  | concept c line => exact Planning.fresh_pure _
  | datasource d line => exact Planning.fresh_pure _
  | imported r line => exact Planning.fresh_pure _

theorem fresh_planStatements (statements : List Statement) :
    (planStatements call env statements).Fresh := by
  induction statements with
  | nil => exact Planning.fresh_pure []
  | cons s rest ih =>
    exact (fresh_form? s).bind fun _ => ih.bind fun _ => Planning.fresh_pure _

theorem forms_singleton (s : Statement) :
    forms call env [s] = Option.toList <$> (form? call env s).run' {} := by
  have hlast : ∀ form : Option Form, Planning.Fresh (do
      let more ← planStatements call env []
      pure (form.toList ++ more)) := fun form => Planning.fresh_pure _
  rw [forms, planStatements, Planning.run'_bind hlast, map_eq_pure_bind]
  congr 1
  funext form
  exact congrArg Except.ok (List.append_nil _)

theorem forms_cons (s : Statement) (rest : List Statement) :
    forms call env (s :: rest) =
      forms call env [s] >>= fun own => (own ++ ·) <$> forms call env rest := by
  have hrest : ∀ form : Option Form, Planning.Fresh (do
      let more ← planStatements call env rest
      pure (form.toList ++ more)) := fun form =>
    (fresh_planStatements rest).bind fun more => Planning.fresh_pure (form.toList ++ more)
  rw [forms_singleton, forms, planStatements, Planning.run'_bind hrest, bind_map_left]
  congr 1
  funext form
  rw [Planning.run'_bind fun more => Planning.fresh_pure (form.toList ++ more), map_eq_pure_bind]
  rfl

/-- The forms of a run are those of its statements, each planned by itself. -/
theorem forms_eq_mapM (statements : List Statement) :
    forms call env statements =
      List.flatten <$> statements.mapM fun s => forms call env [s] := by
  induction statements with
  | nil => rfl
  | cons s rest ih =>
    rw [forms_cons, ih, List.mapM_cons]
    simp

theorem forms_select (s : Select) : forms call env [.select s] =
    (fun plan => [.select plan]) <$> (planSelect call env s).run' {} := by
  rw [forms_singleton, form?, Planning.run'_bind fun _ => Planning.fresh_pure _]
  simp

theorem forms_persist (datasource table : String) (s : Select) (line : Option Nat) :
    forms call env [.persist datasource table s line] =
      (fun plan => [.persist table plan]) <$> (planSelect call env s).run' {} := by
  rw [forms_singleton, form?, Planning.run'_bind fun _ => Planning.fresh_pure _]
  simp

/-- The parts of merged selects are planned as these selects are by themselves. -/
theorem forms_multiSelect (selects : List Select) (align : List AlignItem) (line : Option Nat) :
    forms call env [.multiSelect selects align line] =
      (fun parts => [.multiSelect parts (align.map (alignColumn env))]) <$>
        selects.mapM fun s => (planSelect call env s).run' {} := by
  rw [forms_singleton, form?, Planning.run'_bind fun _ => Planning.fresh_pure _,
    planSelects_eq_mapM, Planning.run'_mapM fresh_planSelect]
  simp

end Statements
end Plan

/-- The query that a lens runs or reveals. -/
def Lens.sql? (lens : Lens) : Option String :=
  match lens.arguments with
  | .text sql :: _ | .texts [sql] :: _ => some sql
  | _ => none

/-- There is something to run exactly if there is a form, and then every lens has its text. -/
def LensOutcome.Shows (own : List Form) : LensOutcome → Prop
  | .built lenses => ∃ form, own = [form] ∧ lenses ≠ [] ∧
      ∀ lens ∈ lenses, lens.sql? = some (DuckDb.print form)
  | .notRunnable => own = []
  | .failed _ => False

namespace DuckDb
variable {env : Environment} {s : Statement} {own : List Form}

theorem shows_ofQuery {form : Form} (h : dialect.generate env [s] = .ok [form]) (index line : Nat) :
    (Lens.ofQuery dialect env index s line).Shows [form] := by
  have hquery : Lens.query dialect env s = .ok (some (print form)) := by
    rw [Lens.query, h]
    rfl
  rw [Lens.ofQuery, hquery]
  refine ⟨form, rfl, by simp, ?_⟩
  simp [Lens.run, Lens.reveal, Lens.sql?]

theorem ofStatement_query {index line : Nat} (hquery : s.isQuery = true)
    (hline : s.line? = some line) :
    Lens.ofStatement dialect env index s = Lens.ofQuery dialect env index s (line - 1) := by
  unfold Lens.ofStatement
  rw [hline]
  cases s with
  | select s => rfl
  | multiSelect selects align line => rfl
  | persist datasource table s line => rfl
  | rawSql text line => cases hquery
  | concept c line => cases hquery
  | datasource d line => cases hquery
  | imported r line => cases hquery

/-- The lenses of a statement show what is planned for it by itself. -/
theorem shows_ofStatement (h : dialect.generate env [s] = .ok own) (hline : s.line? ≠ none)
    (index : Nat) : (Lens.ofStatement dialect env index s).Shows own := by
  obtain ⟨line, hline⟩ := Option.ne_none_iff_exists'.mp hline
  have hbuilt : ∀ {form : Form}, own = [form] →
      (Lens.ofQuery dialect env index s (line - 1)).Shows own := by
    rintro form rfl
    exact shows_ofQuery h index (line - 1)
  cases s with
  | concept c line => exact (Except.ok.inj h).symm
  | datasource d line => exact (Except.ok.inj h).symm
  | imported r line => exact (Except.ok.inj h).symm
  | rawSql text at? =>
    obtain rfl : at? = some line := hline
    refine ⟨.rawSql text, (Except.ok.inj h).symm, List.cons_ne_nil _ _, ?_⟩
    intro lens hlens
    obtain rfl := List.mem_singleton.mp hlens
    rfl
  | select s =>
    obtain ⟨plan, -, hown⟩ := except_map_eq_ok.mp ((Plan.forms_select s).symm.trans h)
    rw [ofStatement_query rfl hline]
    exact hbuilt hown.symm
  | multiSelect selects align line =>
    obtain ⟨parts, -, hown⟩ :=
      except_map_eq_ok.mp ((Plan.forms_multiSelect selects align line).symm.trans h)
    rw [ofStatement_query rfl hline]
    exact hbuilt hown.symm
  | persist datasource table s line =>
    obtain ⟨plan, -, hown⟩ :=
      except_map_eq_ok.mp ((Plan.forms_persist datasource table s line).symm.trans h)
    rw [ofStatement_query rfl hline]
    exact hbuilt hown.symm

theorem getElem?_outcomes {statements : List Statement} {i : Nat} (h : statements[i]? = some s) :
    (Lens.outcomes dialect env statements)[i]? = some (Lens.ofStatement dialect env i s) := by
  rw [Lens.outcomes, List.getElem?_map, List.getElem?_zipIdx, h]
  simp

theorem generate_eq_mapM (statements : List Statement) :
    dialect.generate env statements =
      List.flatten <$> statements.mapM fun s => dialect.generate env [s] :=
  Plan.forms_eq_mapM statements

section Merging
variable {selects : List Select} {align : List AlignItem} {line : Option Nat}

theorem generate_select (select : Select) : dialect.generate env [.select select] =
    (fun plan => [.select plan]) <$> (Plan.planSelect call env select).run' {} :=
  Plan.forms_select select

theorem generate_multiSelect : dialect.generate env [.multiSelect selects align line] =
    (fun parts => [.multiSelect parts (align.map (Plan.alignColumn env))]) <$>
      selects.mapM fun s => (Plan.planSelect call env s).run' {} :=
  Plan.forms_multiSelect selects align line

theorem generate_select_eq_ok {select : Select} {plan : Plan} :
    dialect.generate env [.select select] = .ok [.select plan] ↔
      (Plan.planSelect call env select).run' {} = .ok plan := by
  rw [generate_select, except_map_eq_ok]
  simp

theorem generate_select_eq_error {select : Select} {e : RenderError} :
    dialect.generate env [.select select] = .error e ↔
      (Plan.planSelect call env select).run' {} = .error e := by
  rw [generate_select, except_map_eq_error]

theorem exists_generate_select {select : Select} :
    (∃ forms, dialect.generate env [.select select] = .ok forms) ↔
      ∃ plan, (Plan.planSelect call env select).run' {} = .ok plan := by
  simp only [generate_select, except_map_eq_ok]
  exact ⟨fun ⟨_, plan, h, _⟩ => ⟨plan, h⟩, fun ⟨plan, h⟩ => ⟨_, plan, h, rfl⟩⟩

theorem generate_multiSelect_eq_ok {forms : List Form} :
    dialect.generate env [.multiSelect selects align line] = .ok forms ↔
      ∃ parts, List.Forall₂ (fun s part => dialect.generate env [.select s] = .ok [.select part])
          selects parts ∧
        forms = [.multiSelect parts (align.map (Plan.alignColumn env))] := by
  rw [generate_multiSelect, except_map_eq_ok]
  refine exists_congr fun parts => and_congr ?_ eq_comm
  simp only [mapM_eq_ok_iff, generate_select_eq_ok]

theorem generate_multiSelect_eq_error {e : RenderError} :
    dialect.generate env [.multiSelect selects align line] = .error e ↔
      FirstError (fun s => dialect.generate env [.select s]) selects e := by
  rw [generate_multiSelect, except_map_eq_error, mapM_eq_error_iff]
  simp only [FirstError, exists_generate_select, generate_select_eq_error]

end Merging

/-- A run of statements is planned exactly if each of them is by itself, and gives their
forms in order; otherwise it fails as the first that fails does. The same holds of merged
selects and their parts. So the lenses of a statement, which is planned alone for them,
show what the run gives for it. -/
theorem generate_separately (env : Environment) (statements : List Statement) :
    ((∃ forms, dialect.generate env statements = .ok forms) ↔
      ∀ s ∈ statements, ∃ forms, dialect.generate env [s] = .ok forms) ∧
    (∀ forms, dialect.generate env statements = .ok forms →
      ∃ each, List.Forall₂ (fun s own => dialect.generate env [s] = .ok own) statements each ∧
        forms = each.flatten ∧
        ∀ (i : Nat) s own, statements[i]? = some s → each[i]? = some own → s.line? ≠ none →
          ∃ outcome, (Lens.outcomes dialect env statements)[i]? = some outcome ∧
            outcome.Shows own) ∧
    (∀ e, dialect.generate env statements = .error e ↔
      FirstError (fun s => dialect.generate env [s]) statements e) ∧
    (∀ selects align line forms,
      dialect.generate env [.multiSelect selects align line] = .ok forms ↔
        ∃ parts, List.Forall₂ (fun s part => dialect.generate env [.select s] = .ok [.select part])
            selects parts ∧
          forms = [.multiSelect parts (align.map (Plan.alignColumn env))]) ∧
    (∀ selects align line e,
      dialect.generate env [.multiSelect selects align line] = .error e ↔
        FirstError (fun s => dialect.generate env [.select s]) selects e) := by
  refine ⟨?_, ?_, fun e => ?_, fun selects align line forms => generate_multiSelect_eq_ok,
    fun selects align line e => generate_multiSelect_eq_error⟩
  · rw [← exists_mapM_eq_ok_iff, generate_eq_mapM]
    constructor
    · rintro ⟨forms, h⟩
      obtain ⟨each, heach, -⟩ := except_map_eq_ok.mp h
      exact ⟨each, heach⟩
    · rintro ⟨each, heach⟩
      exact ⟨each.flatten, except_map_eq_ok.mpr ⟨each, heach, rfl⟩⟩
  · intro forms h
    rw [generate_eq_mapM] at h
    obtain ⟨each, heach, rfl⟩ := except_map_eq_ok.mp h
    have halone := mapM_eq_ok_iff.mp heach
    refine ⟨each, halone, rfl, fun i s own hs hown hline => ?_⟩
    refine ⟨Lens.ofStatement dialect env i s, getElem?_outcomes hs, shows_ofStatement ?_ hline i⟩
    obtain ⟨hi, rfl⟩ := List.getElem?_eq_some_iff.mp hs
    obtain ⟨hi', rfl⟩ := List.getElem?_eq_some_iff.mp hown
    exact halone.get hi hi'
  · rw [generate_eq_mapM, except_map_eq_error, mapM_eq_error_iff]

end DuckDb
end ConceptQuery
