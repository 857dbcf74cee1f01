import ConceptQuery.Proofs.Formation
import ConceptQuery.Proofs.Refusals
import ConceptQuery.Proofs.Written

/-! # Which texts are read as what they were written for

A concept that is not read from a source is written as its lineage, and only a binary
operation gets parentheses there. So its text may be read in another way than it was
meant: an operator beside it takes only a part of the lineage as its operand, an argument of
`like` falls apart, or two minus signs that meet start a comment. `Scope.Regroups` says
where this happens, and it happens nowhere else: `Compilation.read_exprSql_iff`.
-/
namespace ConceptQuery

open Grammar (Level)
open Sql (Term)

namespace Expr
open Plan
variable {call : CallWriter} {f : String → Except RenderError String} {e x : Expr} {sql : String}

theorem sizeOf_lt_of_mem_parts (h : x ∈ e.parts) : sizeOf x < sizeOf e := by
  cases e with
  | concept address => cases h
  | literal value => cases h
  | type datatype => cases h
  | call function arguments =>
    have hlt := List.sizeOf_lt_of_mem (show x ∈ arguments from h)
    simp only [call.sizeOf_spec]
    omega
  | binary op lhs rhs =>
    simp only [parts, List.mem_cons, List.not_mem_nil, or_false] at h
    rcases h with rfl | rfl <;> simp only [binary.sizeOf_spec] <;> omega
  | unary op operand =>
    obtain rfl := List.mem_singleton.mp h
    simp only [unary.sizeOf_spec]
    omega
  | isNull operand negated =>
    obtain rfl := List.mem_singleton.mp h
    simp only [isNull.sizeOf_spec]
    omega
  | inList operand items negated =>
    rcases List.mem_cons.mp h with rfl | hmem
    · simp only [inList.sizeOf_spec]
      omega
    · have hlt := List.sizeOf_lt_of_mem hmem
      simp only [inList.sizeOf_spec]
      omega
  | paren inner =>
    obtain rfl := List.mem_singleton.mp h
    simp only [paren.sizeOf_spec]
    omega

theorem exprSql_of_mem_exprSqls {es : List Expr} {sqls : List String}
    (h : exprSqls call f es = .ok sqls) (hx : x ∈ es) : ∃ text, exprSql call f x = .ok text := by
  induction es generalizing sqls with
  | nil => cases hx
  | cons e es ih =>
    obtain ⟨first, hfirst, h⟩ := except_bind_eq_ok.mp h
    obtain ⟨more, hmore, -⟩ := except_bind_eq_ok.mp h
    rcases List.mem_cons.mp hx with rfl | hx
    · exact ⟨first, hfirst⟩
    · exact ih hmore hx

/-- An expression has a text only if each of its parts has one. -/
theorem exprSql_of_mem_parts (h : exprSql call f e = .ok sql) (hx : x ∈ e.parts) :
    ∃ text, exprSql call f x = .ok text := by
  cases e with
  | concept address => cases hx
  | literal value => cases hx
  | type datatype => cases hx
  | call function arguments =>
    obtain ⟨texts, htexts, -⟩ := except_bind_eq_ok.mp h
    exact exprSql_of_mem_exprSqls htexts hx
  | binary op lhs rhs =>
    obtain ⟨left, hleft, h⟩ := except_bind_eq_ok.mp h
    obtain ⟨right, hright, -⟩ := except_bind_eq_ok.mp h
    simp only [parts, List.mem_cons, List.not_mem_nil, or_false] at hx
    rcases hx with rfl | rfl
    · exact ⟨left, hleft⟩
    · exact ⟨right, hright⟩
  | unary op operand =>
    obtain rfl := List.mem_singleton.mp hx
    cases op with
    | not =>
      obtain ⟨text, htext, -⟩ := except_bind_eq_ok.mp h
      exact ⟨text, htext⟩
    | neg =>
      obtain ⟨text, htext, -⟩ := except_bind_eq_ok.mp h
      exact ⟨text, htext⟩
  | isNull operand negated =>
    obtain rfl := List.mem_singleton.mp hx
    obtain ⟨text, htext, -⟩ := except_bind_eq_ok.mp h
    exact ⟨text, htext⟩
  | inList operand items negated =>
    obtain ⟨texts, htexts, h⟩ := except_bind_eq_ok.mp h
    obtain ⟨text, htext, -⟩ := except_bind_eq_ok.mp h
    rcases List.mem_cons.mp hx with rfl | hx
    · exact ⟨text, htext⟩
    · exact exprSql_of_mem_exprSqls htexts hx
  | paren inner =>
    obtain rfl := List.mem_singleton.mp hx
    obtain ⟨text, htext, -⟩ := except_bind_eq_ok.mp h
    exact ⟨text, htext⟩

/-- What holds of the concepts that have a text, and of an expression if of its parts, holds of
all expressions that have a text. -/
theorem induction_on_text {P : Expr → Prop}
    (hconcept : ∀ a text, f a = .ok text → P (.concept a))
    (hparts : ∀ e, (∀ a, e ≠ .concept a) → (∀ x ∈ e.parts, P x) → P e)
    (e : Expr) {sql : String} (h : exprSql call f e = .ok sql) : P e := by
  by_cases he : ∃ a, e = .concept a
  · obtain ⟨a, rfl⟩ := he
    exact hconcept a sql h
  · refine hparts e (not_exists.mp he) fun x hx => ?_
    have hlt := sizeOf_lt_of_mem_parts hx
    obtain ⟨text, htext⟩ := exprSql_of_mem_parts h hx
    exact induction_on_text hconcept hparts x htext
termination_by sizeOf e

end Expr

namespace Plan.Scope
variable {scope : Scope} {e : Expr} {a sql : String}

section Terms

/-- The column of a concept that is read. -/
def column (scope : Scope) (address : String) : Term :=
  .atom ((scope.bindings.get? address).getD address)

/-- How a lineage is written in the place of its concept. -/
def enclosed : Expr → Term → Term
  | .binary _ _ _, t => .paren t
  | _, t => t

/-- A concept as it is written; `depth` bounds the chain of lineages. -/
def termWithin (scope : Scope) : (depth : Nat) → String → Term
  | 0, address => scope.column address
  | depth + 1, address =>
    if scope.bindings.contains address then scope.column address
    else match (scope.env.concept? address).bind Concept.lineage with
      | some lineage => enclosed lineage (lineage.term (termWithin scope depth))
      | none => scope.column address

/-- An expression as it is written. -/
def term (scope : Scope) (e : Expr) : Term :=
  e.term (scope.termWithin scope.depth)

/-- What an expression computes: its operations, with each lineage as one operand. -/
def operations (scope : Scope) (e : Expr) : Term :=
  ((scope.expand e).term scope.column).bare

theorem bare_enclosed (lineage : Expr) (t : Term) : (enclosed lineage t).bare = t.bare := by
  cases lineage <;> rfl

theorem bare_termWithin (depth : Nat) (a : String) : (scope.termWithin depth a).bare =
    ((scope.expansionWithin depth a).term scope.column).bare := by
  induction depth generalizing a with
  | zero => rfl
  | succ depth ih =>
    rw [termWithin, expansionWithin]
    split
    · rfl
    · cases (scope.env.concept? a).bind Concept.lineage with
      | none => rfl
      | some lineage =>
        dsimp only
        rw [bare_enclosed, Expr.term, Term.bare, Expr.term_subst]
        exact Expr.bare_term_congr lineage fun b _ => ih b

/-- What is written has the operations that were meant. -/
theorem bare_term (scope : Scope) (e : Expr) : (scope.term e).bare = scope.operations e := by
  rw [term, operations, expand, Expr.term_subst]
  exact Expr.bare_term_congr e fun b _ => bare_termWithin scope.depth b

/-- A concept with a text is read, or its text is that of its lineage. -/
theorem conceptSqlWithin_cases {depth : Nat} (h : scope.conceptSqlWithin depth a = .ok sql) :
    scope.bindings.get? a = some sql ∨ ∃ n c lineage text, depth = n + 1 ∧
      scope.bindings.get? a = none ∧ scope.env.concept? a = some c ∧ c.lineage = some lineage ∧
      Plan.exprSql scope.call (scope.conceptSqlWithin n) lineage = .ok text ∧
      ∀ t : Term, text.toList = t.chars → sql.toList = (enclosed lineage t).chars := by
  cases depth with
  | zero => cases h
  | succ n =>
    rw [conceptSqlWithin] at h
    cases hread : scope.bindings.get? a with
    | some text =>
      rw [hread] at h
      exact .inl (congrArg some (Except.ok.inj h))
    | none =>
      rw [hread] at h
      cases hc : scope.env.concept? a with
      | none =>
        rw [hc] at h
        cases h
      | some c =>
        rw [hc] at h
        dsimp only at h
        cases hl : c.lineage with
        | none =>
          rw [hl] at h
          cases h
        | some lineage =>
          rw [hl] at h
          cases lineage with
          | binary op lhs rhs =>
            obtain ⟨text, htext, h⟩ := except_bind_eq_ok.mp h
            refine .inr ⟨n, c, _, text, rfl, rfl, rfl, hl, htext, fun t ht => ?_⟩
            rw [← Except.ok.inj h]
            simp [enclosed, Term.chars, ht]
          | _ => exact .inr ⟨n, c, _, sql, rfl, rfl, rfl, hl, h, fun t ht => ht⟩

theorem termWithin_read {depth : Nat} (h : scope.bindings.get? a = some sql) :
    scope.termWithin depth a = .atom sql := by
  have hcolumn : scope.column a = .atom sql := by rw [column, h, Option.getD_some]
  cases depth with
  | zero => exact hcolumn
  | succ n => rw [termWithin, Catalog.contains, h, Option.isSome_some, if_pos rfl, hcolumn]

theorem termWithin_lineage {n : Nat} {c : Concept} {lineage : Expr}
    (hfree : scope.bindings.get? a = none) (hc : scope.env.concept? a = some c)
    (hl : c.lineage = some lineage) :
    scope.termWithin (n + 1) a = enclosed lineage (lineage.term (scope.termWithin n)) := by
  rw [termWithin, Catalog.contains, hfree, Option.isSome_none, if_neg Bool.false_ne_true, hc,
    Option.bind_some, hl]

/-- The text of a concept is that of its term. -/
theorem toList_conceptSqlWithin (hcall : scope.call = DuckDb.call) {depth : Nat}
    (h : scope.conceptSqlWithin depth a = .ok sql) :
    sql.toList = (scope.termWithin depth a).chars := by
  induction depth generalizing a sql with
  | zero => cases h
  | succ depth ih =>
    obtain hread | ⟨n, c, lineage, text, hn, hfree, hc, hl, htext, hchars⟩ :=
      conceptSqlWithin_cases h
    · rw [termWithin_read hread]
      rfl
    · obtain rfl := Nat.succ.inj hn
      rw [termWithin_lineage hfree hc hl]
      rw [hcall] at htext
      exact hchars _ (Expr.toList_exprSql (fun b sql hb => ih hb) lineage htext)

/-- Where a concept has a text, the bound on the chain of lineages is no part of its term. -/
theorem termWithin_of_le {n m : Nat} (h : scope.conceptSqlWithin n a = .ok sql) (hm : n ≤ m) :
    scope.termWithin n a = scope.termWithin m a := by
  induction n generalizing m a sql with
  | zero => cases h
  | succ n ih =>
    obtain ⟨k, rfl⟩ : ∃ k, m = k + 1 := ⟨m - 1, by omega⟩
    obtain hread | ⟨n, c, lineage, text, hn, hfree, hc, hl, htext, -⟩ := conceptSqlWithin_cases h
    · rw [termWithin_read hread, termWithin_read hread]
    · obtain rfl := Nat.succ.inj hn
      rw [termWithin_lineage hfree hc hl, termWithin_lineage hfree hc hl]
      refine congrArg (enclosed lineage) (Expr.term_congr lineage fun b hb => ?_)
      obtain ⟨text, hb⟩ := ok_of_exprSql lineage htext b hb
      exact ih hb (by omega)

theorem term_lineage {n : Nat} {c : Concept} {lineage : Expr}
    (h : Plan.exprSql scope.call (scope.conceptSqlWithin n) lineage = .ok sql)
    (hn : n + 1 ≤ scope.depth) (hfree : scope.bindings.get? a = none)
    (hc : scope.env.concept? a = some c) (hl : c.lineage = some lineage) :
    scope.term (.concept a) = enclosed lineage (scope.term lineage) := by
  have hsame : lineage.term (scope.termWithin scope.env.concepts.size) = scope.term lineage := by
    refine Expr.term_congr lineage fun b hb => ?_
    obtain ⟨text, hb⟩ := ok_of_exprSql lineage h b hb
    have hsize : n ≤ scope.env.concepts.size := Nat.le_of_succ_le_succ hn
    exact (termWithin_of_le hb hsize).symm.trans (termWithin_of_le hb (by omega))
  rw [← hsame]
  exact termWithin_lineage hfree hc hl

/-- What holds of the columns, of a concept if of its lineage, and of an expression if of its
parts, holds of all expressions that have a text. -/
theorem induction_on_lineage {P : Expr → Prop}
    (hread : ∀ a text, scope.bindings.get? a = some text → P (.concept a))
    (hlineage : ∀ a c lineage, scope.bindings.get? a = none → scope.env.concept? a = some c →
      c.lineage = some lineage → scope.term (.concept a) = enclosed lineage (scope.term lineage) →
      P lineage → P (.concept a))
    (hparts : ∀ e, (∀ a, e ≠ .concept a) → (∀ x ∈ e.parts, P x) → P e)
    (h : scope.exprSql e = .ok sql) : P e := by
  suffices hall : ∀ n ≤ scope.depth, ∀ e sql,
      Plan.exprSql scope.call (scope.conceptSqlWithin n) e = .ok sql → P e from
    hall scope.depth le_rfl e sql h
  intro n
  induction n with
  | zero =>
    intro _ e sql h
    exact Expr.induction_on_text (fun a text hnone => by cases hnone) hparts e h
  | succ n ih =>
    intro hn e sql h
    refine Expr.induction_on_text (fun a text htext => ?_) hparts e h
    obtain hcolumn | ⟨k, c, lineage, text, hk, hfree, hc, hl, htext, -⟩ :=
      conceptSqlWithin_cases htext
    · exact hread a _ hcolumn
    · obtain rfl := Nat.succ.inj hk
      exact hlineage a c lineage hfree hc hl (term_lineage htext hn hfree hc hl)
        (ih (by omega) lineage text htext)

end Terms

section Regrouping

/-- Something in an expression, or in a lineage that is written in it, is read in another way
than it was meant. -/
inductive Regroups (scope : Scope) : Expr → Prop where
  /-- The lineage of an operand binds too loosely where it is written. -/
  | operand {e : Expr} {a : String} {level : Level} (hplace : (level, .concept a) ∈ e.operands)
      (hloose : (scope.term (.concept a)).level.rank < level.rank) : Regroups scope e
  /-- A call of `like` is an operand, but the operator that it becomes binds too loosely. -/
  | like {e x y : Expr} {level : Level} (hplace : (level, .call "like" [x, y]) ∈ e.operands)
      (hloose : Level.comparison.rank < level.rank) : Regroups scope e
  /-- An argument of `like` becomes an operand and binds too loosely. -/
  | argument {x y z : Expr} (hplace : z ∈ [x, y])
      (hloose : (scope.term z).level.rank < Level.sum.rank) : Regroups scope (.call "like" [x, y])
  /-- What a minus is written in front of starts with another one. -/
  | comment {x : Expr} (hsigned : (scope.term x).signed = true) : Regroups scope (.unary .neg x)
  | part {e x : Expr} (hpart : x ∈ e.parts) (h : Regroups scope x) : Regroups scope e
  | lineage {a : String} {c : Concept} {lineage : Expr} (hfree : scope.bindings.get? a = none)
      (hconcept : scope.env.concept? a = some c) (hlineage : c.lineage = some lineage)
      (h : Regroups scope lineage) : Regroups scope (.concept a)

theorem graded_enclosed (lineage : Expr) (t : Term) :
    ((enclosed lineage t).Graded ↔ t.Graded) ∧ ((enclosed lineage t).Spaced ↔ t.Spaced) := by
  cases lineage <;> exact ⟨Iff.rfl, Iff.rfl⟩

theorem plain_enclosed (lineage : Expr) (t : Term) :
    ((enclosed lineage t).Plain ↔ t.Plain) ∧ ((enclosed lineage t).Worded ↔ t.Worded) := by
  cases lineage <;> exact ⟨Iff.rfl, Iff.rfl⟩

theorem regroups_concept_iff {c : Concept} {lineage : Expr}
    (hfree : scope.bindings.get? a = none) (hc : scope.env.concept? a = some c)
    (hl : c.lineage = some lineage) :
    scope.Regroups (.concept a) ↔ scope.Regroups lineage := by
  constructor
  · intro h
    cases h with
    | operand hplace => cases hplace
    | like hplace => cases hplace
    | part hpart => cases hpart
    | lineage _ hc' hl' h =>
      obtain rfl := Option.some.inj (hc.symm.trans hc')
      obtain rfl := Option.some.inj (hl.symm.trans hl')
      exact h
  · exact .lineage hfree hc hl

theorem not_regroups_read {text : String} (h : scope.bindings.get? a = some text) :
    ¬ scope.Regroups (.concept a) := by
  intro hregroups
  cases hregroups with
  | operand hplace => cases hplace
  | like hplace => cases hplace
  | part hpart => cases hpart
  | lineage hfree =>
    rw [h] at hfree
    cases hfree

/-- If the parts regroup exactly where they are not graded or not spaced, so does the whole:
an operand of a formed expression can be too loose only if it is a concept or calls `like`. -/
theorem regroups_iff_of_parts (h : e.Formed) (he : ∀ a, e ≠ .concept a)
    (hparts : ∀ x ∈ e.parts, scope.Regroups x ↔ ¬ ((scope.term x).Graded ∧ (scope.term x).Spaced)) :
    scope.Regroups e ↔ ¬ ((scope.term e).Graded ∧ (scope.term e).Spaced) := by
  have hgraded := Expr.graded_term_iff (f := scope.termWithin scope.depth) he
  have hspaced := Expr.spaced_term_iff (f := scope.termWithin scope.depth) he
  constructor
  · rintro hregroups ⟨hgood, hspace⟩
    obtain ⟨hoperands, hlike, hall⟩ := hgraded.mp hgood
    obtain ⟨hsigned, hspaces⟩ := hspaced.mp hspace
    cases hregroups with
    | operand hplace hloose => exact absurd (hoperands _ hplace) (Nat.not_le_of_lt hloose)
    | like hplace hloose => exact absurd (hoperands _ hplace) (Nat.not_le_of_lt hloose)
    | argument hplace hloose => exact absurd (hlike _ _ rfl _ hplace) (Nat.not_le_of_lt hloose)
    | comment hminus => exact Bool.false_ne_true ((hsigned _ rfl).symm.trans hminus)
    | part hpart hx => exact (hparts _ hpart).mp hx ⟨hall _ hpart, hspaces _ hpart⟩
    | lineage => exact he _ rfl
  · intro hbad
    by_contra hnone
    have hpart : ∀ x ∈ e.parts, (scope.term x).Graded ∧ (scope.term x).Spaced := by
      intro x hx
      by_contra hpart
      exact hnone (.part hx ((hparts x hx).mpr hpart))
    refine hbad ⟨hgraded.mpr ⟨?_, ?_, fun x hx => (hpart x hx).1⟩,
      hspaced.mpr ⟨?_, fun x hx => (hpart x hx).2⟩⟩
    · rintro ⟨level, x⟩ hx
      by_contra! hloose
      by_cases hconcept : ∃ a, x = .concept a
      · obtain ⟨a, rfl⟩ := hconcept
        exact hnone (.operand hx hloose)
      by_cases hlike : ∃ y z, x = .call "like" [y, z]
      · obtain ⟨y, z, rfl⟩ := hlike
        exact hnone (.like hx hloose)
      · have hlevel := Expr.level_term (f := scope.termWithin scope.depth) (not_exists.mp hconcept)
          fun y z heq => hlike ⟨y, z, heq⟩
        rw [hlevel] at hloose
        exact absurd (Expr.formed_operand h hx) (Nat.not_le_of_lt hloose)
    · rintro x y rfl z hz
      by_contra! hloose
      exact hnone (.argument hz hloose)
    · rintro x rfl
      by_contra hsigned
      exact hnone (.comment (Bool.eq_true_of_not_eq_false hsigned))

theorem regroups_iff (henv : scope.env.Formed) (he : e.Formed) (h : scope.exprSql e = .ok sql) :
    scope.Regroups e ↔ ¬ ((scope.term e).Graded ∧ (scope.term e).Spaced) := by
  refine induction_on_lineage
    (P := fun e => e.Formed →
      (scope.Regroups e ↔ ¬ ((scope.term e).Graded ∧ (scope.term e).Spaced))) ?_ ?_ ?_ h he
  · intro a text hread _
    rw [term, Expr.term, termWithin_read hread]
    exact iff_of_false (not_regroups_read hread) (not_not_intro ⟨trivial, trivial⟩)
  · intro a c lineage hfree hc hl hterm ih _
    rw [regroups_concept_iff hfree hc hl, hterm, (graded_enclosed lineage _).1,
      (graded_enclosed lineage _).2]
    exact ih (henv a c hc lineage hl)
  · intro e hne ih hformed
    exact regroups_iff_of_parts hformed hne fun x hx => ih x hx (Expr.formed_part hformed hx)

/-- All values that are written are words, if the columns are. -/
theorem plain_term (henv : scope.env.Formed)
    (hcolumns : ∀ a text, scope.bindings.get? a = some text →
      text ∉ Sql.reserved ∧ Sql.IsWord text.toList)
    (he : e.Formed) (h : scope.exprSql e = .ok sql) :
    (scope.term e).Plain ∧ (scope.term e).Worded := by
  refine induction_on_lineage
    (P := fun e => e.Formed → (scope.term e).Plain ∧ (scope.term e).Worded) ?_ ?_ ?_ h he
  · intro a text hread _
    rw [term, Expr.term, termWithin_read hread]
    exact hcolumns a text hread
  · intro a c lineage hfree hc hl hterm ih _
    rw [hterm, (plain_enclosed lineage _).1, (plain_enclosed lineage _).2]
    exact ih (henv a c hc lineage hl)
  · intro e hne ih hformed
    exact Expr.plain_term_of_parts hne hformed fun x hx => ih x hx (Expr.formed_part hformed hx)

/-- A text is read as the operations that were meant, unless something is regrouped in it. -/
theorem read_iff (hcall : scope.call = DuckDb.call) (henv : scope.env.Formed)
    (hcolumns : ∀ a text, scope.bindings.get? a = some text →
      text ∉ Sql.reserved ∧ Sql.IsWord text.toList)
    (he : e.Formed) (h : scope.exprSql e = .ok sql) :
    Sql.read sql = some (scope.operations e) ↔ ¬ scope.Regroups e := by
  obtain ⟨hplain, hworded⟩ := plain_term henv hcolumns he h
  have htext : sql.toList = (scope.term e).chars := by
    refine Expr.toList_exprSql (fun a sql ha => toList_conceptSqlWithin hcall ha) e ?_
    rw [← hcall]
    exact h
  rw [← bare_term, Sql.read_iff hplain hworded htext, regroups_iff henv he h, not_not]

end Regrouping

end Plan.Scope

open Plan Compile

/-- The columns that are read are words. -/
theorem isWord_of_planSelect {call : CallWriter} {env : Environment} {s : Select} {p p' : Planner}
    {plan : Plan} (h : (planSelect call env s).run p = .ok (plan, p')) {a text : String}
    (ha : p'.bindings.get? a = some text) : text ∉ Sql.reserved ∧ Sql.IsWord text.toList := by
  rw [run_planSelect] at h
  obtain ⟨roots, -, h⟩ := except_bind_eq_ok.mp h
  obtain ⟨choice, hchoice, h⟩ := except_bind_eq_ok.mp h
  obtain ⟨plan', -, h⟩ := except_bind_eq_ok.mp h
  obtain ⟨-, rfl⟩ := Prod.mk.inj (Except.ok.inj h)
  rw [(covers_of_chooseSources hchoice).bound a] at ha
  obtain ⟨d, -, hcolumn⟩ := List.exists_of_findSome?_eq_some ha
  obtain ⟨b, -, rfl⟩ := columnIn_eq_some.mp hcolumn
  exact Expr.plain_columnRef (aliasFor d) b.column

/-- An ordering is written as its expression, with its direction behind it. -/
theorem forall₂_planOrdering {scope : Scope} {orderBy : List OrderItem} {texts : List String}
    (h : planOrdering scope orderBy = .ok texts) :
    List.Forall₂ (fun o text => ∃ sql, scope.exprSql o.expr = .ok sql ∧
      text = sql ++ if o.descending then " DESC" else " ASC") orderBy texts := by
  induction orderBy generalizing texts with
  | nil =>
    obtain rfl := Except.ok.inj h
    exact .nil
  | cons first rest ih =>
    obtain ⟨sql, hsql, h⟩ := except_bind_eq_ok.mp h
    obtain ⟨more, hmore, h⟩ := except_bind_eq_ok.mp h
    obtain rfl := Except.ok.inj h
    exact .cons ⟨sql, hsql, rfl⟩ (ih hmore)

/-- All expressions of a select that is planned have a text. -/
theorem exprSql_of_planSelect {call : CallWriter} {env : Environment} {s : Select} {p p' : Planner}
    {plan : Plan} (h : (planSelect call env s).run p = .ok (plan, p')) {e : Expr}
    (he : e ∈ s.exprs) : ∃ sql, (p'.scope call env).exprSql e = .ok sql := by
  obtain ⟨sources, hover⟩ := planOver_of_planSelect h
  obtain ⟨planned, condition, orderBy, hplanned, horderBy, hcondition, -⟩ := planOver_eq_ok hover
  simp only [Select.exprs, List.mem_append, List.mem_map, Option.mem_toList] at he
  obtain ⟨i, hi, rfl⟩ | he | ⟨o, ho, rfl⟩ := he
  · exact exists_conceptSql hover hi
  · rw [he] at hcondition
    obtain ⟨sql, -, hsql⟩ := Option.map_eq_some_iff.mp hcondition.symm
    exact ⟨sql, hsql.symm⟩
  · obtain ⟨text, -, sql, hsql, -⟩ :=
      exists_mem_of_forall₂ (forall₂_planOrdering horderBy).flip ho
    exact ⟨sql, hsql⟩

/-- The text of each expression in a query of a document is read as the operations of that
expression, with all lineages as single operands, exactly if nothing is regrouped in it. -/
theorem Compilation.read_exprSql_iff {load : Loader} {depth : Nat} {stack : List String}
    {text : String} {tree : Tree Leaf} {c : Compilation} (hparse : parse text = .ok tree)
    (hrun : Compilation.run (compileModule load depth stack) .initial text tree = c)
    (hresolved : c.error = none) {st : Statement} (hst : st ∈ c.statements) {s : Select}
    (hs : s ∈ st.selects) {p p' : Planner} {plan : Plan}
    (hplan : (planSelect DuckDb.call c.env s).run p = .ok (plan, p')) {e : Expr}
    (he : e ∈ s.exprs) :
    ∃ sql, (p'.scope DuckDb.call c.env).exprSql e = .ok sql ∧
      (Sql.read sql = some ((p'.scope DuckDb.call c.env).operations e) ↔
        ¬ (p'.scope DuckDb.call c.env).Regroups e) := by
  subst hrun
  obtain ⟨henv, hformed⟩ := Compilation.formed_of_run hparse hresolved
  obtain ⟨sql, hsql⟩ := exprSql_of_planSelect hplan he
  exact ⟨sql, hsql, Scope.read_iff rfl henv (fun a text => isWord_of_planSelect hplan)
    (hformed st hst s hs e he) hsql⟩

/-- The plan of a query in a document, found by computing it. -/
theorem Compilation.exists_plan (text : String)
    (check : Environment → Select → Plan → Planner → Bool)
    (h : ∃ tree, parse text = .ok tree ∧
      (fun c : Compilation => some (c.error, c.statements.any fun st => st.selects.any fun s =>
          ((planSelect DuckDb.call c.env s).run {}).toOption.any fun r => check c.env s r.1 r.2))
        (Compilation.run (compileModule (Library.mk [] id).load 0 []) .initial text tree) =
        some (none, true)) :
    ∃ tree c, parse text = .ok tree ∧
      Compilation.run (compileModule (Library.mk [] id).load 0 []) .initial text tree = c ∧
      c.error = none ∧ ∃ st ∈ c.statements, ∃ s ∈ st.selects, ∃ plan p,
        (planSelect DuckDb.call c.env s).run {} = .ok (plan, p) ∧ check c.env s plan p = true := by
  obtain ⟨tree, hparse, hcomputed⟩ := h
  obtain ⟨hresolved, hstatements⟩ := Prod.mk.inj (Option.some.inj hcomputed)
  obtain ⟨st, hst, hselects⟩ := List.any_eq_true.mp hstatements
  obtain ⟨s, hs, hplanned⟩ := List.any_eq_true.mp hselects
  obtain ⟨⟨plan, p⟩, hplan, hcheck⟩ := exists_of_any hplanned
  exact ⟨tree, _, hparse, rfl, hresolved, st, hst, s, hs, plan, p, hplan, hcheck⟩

/-- Orders with their amounts, and a query. -/
def ordersWith (query : String) : String :=
  "key id int;\nproperty id.price float;\nproperty id.paid bool;\n" ++
    "datasource orders (id, price, paid) address orders;\n" ++ query

/-- The condition of a query that is planned, found by computing it. -/
theorem Compilation.exists_condition (query : String)
    (check : Option String → String → Term → Bool)
    (h : ∃ tree, parse (ordersWith query) = .ok tree ∧
      (fun c : Compilation => some (c.error, c.statements.any fun st => st.selects.any fun s =>
          ((planSelect DuckDb.call c.env s).run {}).toOption.any fun r =>
            s.condition.any fun e => ((r.2.scope DuckDb.call c.env).exprSql e).toOption.any
              fun sql => check r.1.condition sql ((r.2.scope DuckDb.call c.env).operations e)))
        (Compilation.run (compileModule (Library.mk [] id).load 0 []) .initial
          (ordersWith query) tree) =
        some (none, true)) :
    ∃ tree c, parse (ordersWith query) = .ok tree ∧
      Compilation.run (compileModule (Library.mk [] id).load 0 []) .initial
        (ordersWith query) tree = c ∧
      c.error = none ∧ ∃ st ∈ c.statements, ∃ s ∈ st.selects, ∃ plan p,
        (planSelect DuckDb.call c.env s).run {} = .ok (plan, p) ∧ ∃ e ∈ s.exprs, ∃ sql,
        (p.scope DuckDb.call c.env).exprSql e = .ok sql ∧
        check plan.condition sql ((p.scope DuckDb.call c.env).operations e) = true := by
  obtain ⟨tree, c, hparse, hrun, hresolved, st, hst, s, hs, plan, p, hplan, hcondition⟩ :=
    Compilation.exists_plan (ordersWith query)
      (fun env s plan p => s.condition.any fun e =>
        ((p.scope DuckDb.call env).exprSql e).toOption.any fun sql =>
          check plan.condition sql ((p.scope DuckDb.call env).operations e)) h
  obtain ⟨e, he, htext⟩ := (Option.any_eq_true _ _).mp hcondition
  obtain ⟨sql, hsql, hcheck⟩ := exists_of_any htext
  have hexprs : e ∈ s.exprs := by simp [Select.exprs, he]
  exact ⟨tree, c, hparse, hrun, hresolved, st, hst, s, hs, plan, p, hplan, e, hexprs, sql, hsql,
    hcheck⟩

/-- A sum is multiplied, and a minus is in front of it. -/
theorem Compilation.read_exprSql_iff_product :
    ∃ tree c, parse (ordersWith "auto gross <- price + 5;\nselect id where -gross * 2 < -9;") =
        .ok tree ∧
      Compilation.run (compileModule (Library.mk [] id).load 0 []) .initial
        (ordersWith "auto gross <- price + 5;\nselect id where -gross * 2 < -9;") tree = c ∧
      c.error = none ∧ ∃ st ∈ c.statements, ∃ s ∈ st.selects, ∃ plan p,
        (planSelect DuckDb.call c.env s).run {} = .ok (plan, p) ∧ ∃ e ∈ s.exprs,
        (p.scope DuckDb.call c.env).exprSql e =
          .ok "-(\"orders\".\"price\" + 5) * 2 < -9" ∧
        Sql.read "-(\"orders\".\"price\" + 5) * 2 < -9" =
          some ((p.scope DuckDb.call c.env).operations e) ∧
        ¬ (p.scope DuckDb.call c.env).Regroups e := by
  obtain ⟨tree, c, hparse, hrun, hresolved, st, hst, s, hs, plan, p, hplan, e, he, sql, hsql,
    hcheck⟩ := Compilation.exists_condition
      "auto gross <- price + 5;\nselect id where -gross * 2 < -9;"
      (fun _ sql meant => decide (sql = "-(\"orders\".\"price\" + 5) * 2 < -9" ∧
        Sql.read sql = some meant)) (by apply exists_tree; decide +kernel)
  obtain ⟨rfl, hread⟩ := of_decide_eq_true hcheck
  obtain ⟨sql, hsql', hiff⟩ :=
    Compilation.read_exprSql_iff hparse hrun hresolved hst hs hplan he
  obtain rfl := Except.ok.inj (hsql.symm.trans hsql')
  exact ⟨tree, c, hparse, hrun, hresolved, st, hst, s, hs, plan, p, hplan, e, he, hsql, hread,
    hiff.mp hread⟩

/-- Asked for the orders that are neither paid nor not, the text asks for all others: the test
for null takes the column as its operand, and not the negation. -/
theorem Compilation.not_read_negated :
    ∃ tree c, parse (ordersWith "auto due <- not paid;\nselect id where due is null;") = .ok tree ∧
      Compilation.run (compileModule (Library.mk [] id).load 0 []) .initial
        (ordersWith "auto due <- not paid;\nselect id where due is null;") tree = c ∧
      c.error = none ∧ ∃ st ∈ c.statements, ∃ s ∈ st.selects, ∃ plan p,
        (planSelect DuckDb.call c.env s).run {} = .ok (plan, p) ∧
        plan.condition = some "NOT \"orders\".\"paid\" IS NULL" ∧ ∃ e ∈ s.exprs,
        (p.scope DuckDb.call c.env).exprSql e = .ok "NOT \"orders\".\"paid\" IS NULL" ∧
        (p.scope DuckDb.call c.env).operations e =
          .isNull (.unary .not (.atom "\"orders\".\"paid\"")) false ∧
        Sql.read "NOT \"orders\".\"paid\" IS NULL" =
          some (.unary .not (.isNull (.atom "\"orders\".\"paid\"") false)) ∧
        Sql.read "NOT \"orders\".\"paid\" IS NULL" ≠
          some ((p.scope DuckDb.call c.env).operations e) := by
  obtain ⟨tree, c, hparse, hrun, hresolved, st, hst, s, hs, plan, p, hplan, e, he, sql, hsql,
    hcheck⟩ := Compilation.exists_condition
      "auto due <- not paid;\nselect id where due is null;"
      (fun condition sql meant => decide (
        condition = some "NOT \"orders\".\"paid\" IS NULL" ∧
        sql = "NOT \"orders\".\"paid\" IS NULL" ∧
        meant = .isNull (.unary .not (.atom "\"orders\".\"paid\"")) false))
      (by apply exists_tree; decide +kernel)
  obtain ⟨hcondition, rfl, hmeant⟩ := of_decide_eq_true hcheck
  have hread : Sql.read "NOT \"orders\".\"paid\" IS NULL" =
      some (.unary .not (.isNull (.atom "\"orders\".\"paid\"") false)) := by
    decide +kernel
  refine ⟨tree, c, hparse, hrun, hresolved, st, hst, s, hs, plan, p, hplan, hcondition, e, he,
    hsql, hmeant, hread, ?_⟩
  rw [hread, hmeant]
  simp

end ConceptQuery
