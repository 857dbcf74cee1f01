import Mathlib.Data.Finset.Card
import ConceptQuery.Plan.Render
import ConceptQuery.Proofs.Passes
import ConceptQuery.Proofs.Strays

/-! # Lineages are closed and come to an end, strays apart

The text of a concept is made from that of the concepts in its lineage, and so on,
with nothing that would notice a circle. That this ends is a property of the
environments that compiling makes: own declarations mention only what is known by
then. Imports are the exception. A mention that strayed may name nothing, or even
close a circle, and these are the only ways to fail: `Compilation.lineage_sound_iff`.
-/
namespace ConceptQuery

namespace Environment

/-- The lineage of the one concept mentions the other. -/
def Uses (env : Environment) (a b : String) : Prop :=
  ∃ c, env.concept? a = some c ∧ b ∈ c.uses

/-- No concept is computed from itself, however many steps it takes. -/
def Acyclic (env : Environment) : Prop :=
  ∀ a, ¬ Relation.TransGen env.Uses a a

/-- All that is mentioned is there. -/
def Closed (env : Environment) : Prop :=
  ∀ m, env.Holds m → env.KnowsAll m.mentions

/-- Every stray names a concept that is there, and none closes a circle. -/
structure StraysHarmless (load : Compile.Loader) (depth : Nat) (stack : List String)
    (env : Environment) : Prop where
  known : ∀ m, env.Holds m → ∀ a, Strayed load depth stack m a → env.Knows a
  noCircle : ∀ c, env.Holds (.concept c) → ∀ a ∈ c.uses, Strayed load depth stack (.concept c) a →
    ¬ Relation.ReflTransGen env.Uses a c.address

variable {load : Compile.Loader} {depth : Nat} {stack : List String} {env : Environment}

theorem closed_iff : env.Closed ↔
    (∀ c ∈ env.concepts.values, env.KnowsAll c.mentions) ∧
      ∀ d ∈ env.datasources.values, env.KnowsAll d.mentions := by
  constructor
  · intro h
    exact ⟨fun c hc => h (.concept c) hc, fun d hd => h (.datasource d) hd⟩
  · rintro ⟨hconcepts, hdatasources⟩ m hm
    cases m with
    | concept c => exact hconcepts c hm
    | datasource d => exact hdatasources d hm

instance (addresses : List String) : Decidable (env.KnowsAll addresses) :=
  inferInstanceAs (Decidable (∀ a ∈ addresses, a ∈ env.concepts.keys))

instance : Decidable env.Closed :=
  decidable_of_iff _ closed_iff.symm

theorem Layered.holds_known (h : Layered load depth stack env) {m : Member} (hm : env.Holds m)
    {a : String} (ha : a ∈ m.mentions) : env.Knows a ∨ Strayed load depth stack m a := by
  cases m with
  | concept c =>
    obtain ⟨key, hmem⟩ := mem_values_iff.mp hm
    obtain ⟨front, back, hsplit⟩ := List.append_of_mem hmem
    rcases h.before hsplit a ha with hbefore | hstray
    · refine .inl ?_
      rw [Knows, Catalog.keys, hsplit, List.map_append]
      exact List.mem_append_left _ hbefore
    · exact .inr hstray
  | datasource d => exact h.known d hm a ha

/-- A mention that did not stray names an earlier concept. -/
theorem Layered.earlier (h : Layered load depth stack env) {a b : String} {c : Concept}
    (hc : env.concept? a = some c) (hb : b ∈ c.uses)
    (hstray : ¬ Strayed load depth stack (.concept c) b) :
    env.concepts.keys.idxOf b < env.concepts.keys.idxOf a := by
  obtain ⟨front, back, hsplit⟩ := List.append_of_mem (Catalog.mem_entries_of_get? hc)
  have hmention : b ∈ c.mentions := List.mem_append_left _ hb
  have hbefore : b ∈ front.map Prod.fst :=
    (h.before hsplit b hmention).resolve_right hstray
  have hkeys : env.concepts.keys = front.map Prod.fst ++ a :: back.map Prod.fst := by
    rw [Catalog.keys, hsplit, List.map_append]
    rfl
  have hnodup := h.nodup
  rw [hkeys] at hnodup
  have hnot : a ∉ front.map Prod.fst := by
    intro hmem
    exact (List.nodup_append.mp hnodup).2.2 a hmem a List.mem_cons_self rfl
  rw [hkeys, List.idxOf_append_of_mem hbefore, List.idxOf_append_of_notMem hnot]
  have hlt := List.idxOf_lt_length_of_mem hbefore
  omega

/-- The mention of a concept in a lineage strayed. -/
def StrayUse (load : Compile.Loader) (depth : Nat) (stack : List String) (env : Environment)
    (a b : String) : Prop :=
  ∃ c, env.concept? a = some c ∧ b ∈ c.uses ∧ Strayed load depth stack (.concept c) b

/-- A way from one concept to another goes back to earlier ones, or over a stray. -/
theorem Layered.earlier_or_stray (h : Layered load depth stack env) {a b : String}
    (hway : Relation.TransGen env.Uses a b) :
    env.concepts.keys.idxOf b < env.concepts.keys.idxOf a ∨
      ∃ x y, Relation.ReflTransGen env.Uses a x ∧ StrayUse load depth stack env x y ∧
        Relation.ReflTransGen env.Uses y b := by
  have hone : ∀ {x y}, env.Uses x y →
      env.concepts.keys.idxOf y < env.concepts.keys.idxOf x ∨ StrayUse load depth stack env x y := by
    rintro x y ⟨c, hc, hy⟩
    by_cases hstray : Strayed load depth stack (.concept c) y
    · exact .inr ⟨c, hc, hy, hstray⟩
    · exact .inl (h.earlier hc hy hstray)
  induction hway with
  | single huse =>
    rcases hone huse with hlt | hstray
    · exact .inl hlt
    · exact .inr ⟨_, _, .refl, hstray, .refl⟩
  | tail hway huse ih =>
    rcases ih with hlt | ⟨x, y, hx, hstray, hy⟩
    · rcases hone huse with hlt' | hstray
      · exact .inl (hlt'.trans hlt)
      · exact .inr ⟨_, _, hway.to_reflTransGen, hstray, .refl⟩
    · exact .inr ⟨x, y, hx, hstray, hy.tail huse⟩

/-- The environment is closed and has no circle exactly if no stray does harm. -/
theorem Layered.sound_iff (h : Layered load depth stack env) :
    env.Closed ∧ env.Acyclic ↔ env.StraysHarmless load depth stack := by
  constructor
  · rintro ⟨hclosed, hacyclic⟩
    refine ⟨fun m hm a hstray => hclosed m hm a hstray.mem_mentions, ?_⟩
    intro c hc a ha hstray hcircle
    have huse : env.Uses c.address a := ⟨c, h.concept?_address hc, ha⟩
    exact hacyclic c.address (Relation.TransGen.head' huse hcircle)
  · intro hharmless
    constructor
    · intro m hm a ha
      rcases h.holds_known hm ha with hknown | hstray
      · exact hknown
      · exact hharmless.known m hm a hstray
    · intro a hcircle
      rcases h.earlier_or_stray hcircle with hlt | ⟨x, y, hx, ⟨c, hc, hy, hstray⟩, hback⟩
      · exact absurd hlt (lt_irrefl _)
      · have haddress : c.address = x := h.address_of_concept? hc
        apply hharmless.noCircle c (mem_values_of_concept? hc) y hy hstray
        rw [haddress]
        exact hback.trans hx

section Heights
open Classical

/-- The number of concepts that a concept is computed from, itself included. -/
noncomputable def height (env : Environment) (a : String) : Nat :=
  (env.concepts.keys.toFinset.filter fun b => Relation.ReflTransGen env.Uses a b).card

theorem height_le_size (env : Environment) (a : String) : env.height a ≤ env.concepts.size := by
  calc env.height a ≤ env.concepts.keys.toFinset.card := Finset.card_filter_le _ _
    _ ≤ env.concepts.keys.length := List.toFinset_card_le _
    _ = env.concepts.size := List.length_map _

/-- Without circles, what a concept uses is computed from fewer. -/
theorem Acyclic.height_lt (h : env.Acyclic) {a b : String} (huse : env.Uses a b) :
    env.height b < env.height a := by
  obtain ⟨c, hc, -⟩ := id huse
  apply Finset.card_lt_card
  refine ⟨fun x hx => ?_, fun hsubset => ?_⟩
  · simp only [Finset.mem_filter] at hx ⊢
    exact ⟨hx.1, hx.2.head huse⟩
  · have ha : a ∈ env.concepts.keys.toFinset.filter fun x => Relation.ReflTransGen env.Uses a x :=
      Finset.mem_filter.mpr ⟨List.mem_toFinset.mpr (knows_of_concept? hc), .refl⟩
    have hback := (Finset.mem_filter.mp (hsubset ha)).2
    exact h a (Relation.TransGen.head' huse hback)

/-- Following lineages comes to an end exactly if there is no circle. -/
theorem acyclic_iff_wellFounded :
    env.Acyclic ↔ WellFounded fun b a => env.Uses a b := by
  constructor
  · intro h
    exact Subrelation.wf (fun huse => h.height_lt huse) (measure env.height).wf
  · intro hwf a hcircle
    have hswap : Relation.TransGen (fun b a => env.Uses a b) a a :=
      Relation.transGen_swap.mpr hcircle
    exact hwf.transGen.asymmetric a a hswap hswap

/-- Lineages that only lead down in rank close no circle. -/
theorem acyclic_of_rank (rank : String → Nat)
    (h : ∀ entry ∈ env.concepts.entries, ∀ b ∈ entry.2.uses, rank b < rank entry.1) :
    env.Acyclic := by
  refine acyclic_iff_wellFounded.mpr (Subrelation.wf ?_ (measure rank).wf)
  rintro b a ⟨c, hc, hb⟩
  exact h (a, c) (Catalog.mem_entries_of_get? hc) b hb

end Heights
end Environment

namespace Plan
variable {call : CallWriter} {f g : String → Except RenderError String}

mutual
/-- The text of an expression depends on that of the concepts it mentions. -/
theorem exprSql_congr (e : Expr) (h : ∀ a ∈ e.mentions, f a = g a) :
    exprSql call f e = exprSql call g e := by
  cases e with
  | concept address => exact h address (by simp [Expr.mentions])
  | literal value => rfl
  | type datatype => rfl
  | call function arguments =>
    rw [exprSql, exprSql, exprSqls_congr arguments h]
  | binary op lhs rhs =>
    rw [exprSql, exprSql, exprSql_congr lhs fun a ha => h a (List.mem_append_left _ ha),
      exprSql_congr rhs fun a ha => h a (List.mem_append_right _ ha)]
  | unary op operand =>
    cases op with
    | not => rw [exprSql, exprSql, exprSql_congr operand h]
    | neg => rw [exprSql, exprSql, exprSql_congr operand h]
  | isNull operand negated => rw [exprSql, exprSql, exprSql_congr operand h]
  | inList operand items negated =>
    rw [exprSql, exprSql, exprSqls_congr items fun a ha => h a (List.mem_append_right _ ha),
      exprSql_congr operand fun a ha => h a (List.mem_append_left _ ha)]
  | paren inner => rw [exprSql, exprSql, exprSql_congr inner h]

theorem exprSqls_congr (es : List Expr) (h : ∀ a ∈ Expr.mentionsAll es, f a = g a) :
    exprSqls call f es = exprSqls call g es := by
  cases es with
  | nil => rfl
  | cons e es =>
    rw [exprSqls, exprSqls, exprSql_congr e fun a ha => h a (List.mem_append_left _ ha),
      exprSqls_congr es fun a ha => h a (List.mem_append_right _ ha)]
end

namespace Scope
variable {scope : Scope}

/-- The bound on the chain of lineages is never reached: any greater one gives the
same texts and the same answers. -/
def Suffices (scope : Scope) : Prop :=
  ∀ more address,
    scope.conceptSqlWithin (scope.depth + more) address = scope.conceptSql address ∧
    scope.isAggregateWithin (scope.depth + more) address = scope.isAggregate address

theorem uses_of_lineage {a b : String} {c : Concept} {lineage : Expr}
    (hc : scope.env.concept? a = some c) (hl : c.lineage = some lineage)
    (hb : b ∈ lineage.mentions) : scope.env.Uses a b := by
  refine ⟨c, hc, ?_⟩
  rw [Concept.uses, hl]
  exact hb

theorem conceptSqlWithin_eq (h : scope.env.Acyclic) {n m : Nat} {a : String}
    (hn : scope.env.height a < n) (hm : scope.env.height a < m) :
    scope.conceptSqlWithin n a = scope.conceptSqlWithin m a := by
  induction n generalizing m a with
  | zero => omega
  | succ n ih =>
    cases m with
    | zero => omega
    | succ m =>
      rw [conceptSqlWithin, conceptSqlWithin]
      cases scope.bindings.get? a with
      | some sql => rfl
      | none =>
        cases hc : scope.env.concept? a with
        | none => rfl
        | some c =>
          dsimp only
          cases hl : c.lineage with
          | none => rfl
          | some lineage =>
            -- what the lineage mentions has a smaller height
            have hbelow : ∀ b ∈ lineage.mentions,
                scope.conceptSqlWithin n b = scope.conceptSqlWithin m b := by
              intro b hb
              have hlt := h.height_lt (uses_of_lineage hc hl hb)
              exact ih (by omega) (by omega)
            have hsame : Plan.exprSql scope.call (scope.conceptSqlWithin n) lineage =
                Plan.exprSql scope.call (scope.conceptSqlWithin m) lineage :=
              exprSql_congr lineage hbelow
            cases lineage with
            | binary op lhs rhs => simp only [hsame]
            | _ => exact hsame

theorem isAggregateWithin_eq (h : scope.env.Acyclic) {n m : Nat} {a : String}
    (hn : scope.env.height a < n) (hm : scope.env.height a < m) :
    scope.isAggregateWithin n a = scope.isAggregateWithin m a := by
  induction n generalizing m a with
  | zero => omega
  | succ n ih =>
    cases m with
    | zero => omega
    | succ m =>
      rw [isAggregateWithin, isAggregateWithin]
      cases hc : scope.env.concept? a with
      | none => rfl
      | some c =>
        dsimp only
        cases hl : c.lineage with
        | none => rfl
        | some lineage =>
          have hbelow : ∀ b ∈ lineage.concepts,
              scope.isAggregateWithin n b = scope.isAggregateWithin m b := by
            intro b hb
            have hlt := h.height_lt (uses_of_lineage hc hl (Expr.mem_concepts.mp hb))
            exact ih (by omega) (by omega)
          have hany : lineage.concepts.any (scope.isAggregateWithin n) =
              lineage.concepts.any (scope.isAggregateWithin m) := by
            rw [Bool.eq_iff_iff, List.any_eq_true, List.any_eq_true]
            exact exists_congr fun b => and_congr_right fun hb => by rw [hbelow b hb]
          rw [Option.any_some, Option.any_some, hany]

theorem suffices_of_acyclic (h : scope.env.Acyclic) : scope.Suffices := by
  intro more a
  have hsize := scope.env.height_le_size a
  have hdepth : scope.env.height a < scope.depth := by
    rw [depth]
    omega
  exact ⟨conceptSqlWithin_eq h (by omega) hdepth, isAggregateWithin_eq h (by omega) hdepth⟩

end Scope
end Plan

namespace Compile

/-- What a statement mentions is known from the moment it is compiled. -/
theorem kept_mentions {importer : Importer} {lines : List (List Char)} {start : Environment} :
    Kept importer lines start fun _ slot env => env.KnowsAll slot.mentions where
  step hstep hslot := fun a ha => hstep.knows (hslot a ha)
  first _ h := (brings_firstPass h).known
  concept {node m s env env'} _ _ _ h := by
    have hbrings : Brings importer env env' (attempted (.ok s)) := brings_tryConcept h
    exact hbrings.known
  datasource {node m s env env'} _ _ _ h := by
    have hbrings : Brings importer env env' s.mentions := brings_datasource h
    exact hbrings.known
  query {node m s env env'} _ _ h := by
    have hbrings : Brings importer env env' s.mentions := brings_query h
    exact hbrings.known

end Compile

open Compile

/-- Of a document that compiles, every statement mentions only concepts of the
environment. The environment is closed and free of circles exactly if no stray does
harm. Following lineages ends exactly if it is free of circles, and then planning
never reaches its bound. -/
theorem Compilation.lineage_sound_iff {load : Loader} {depth : Nat} {stack : List String}
    {text : String} {tree : Tree Leaf} {c : Compilation}
    (hrun : Compilation.run (compileModule load depth stack) .initial text tree = c)
    (hresolved : c.error = none) :
    (∀ s ∈ c.statements, c.env.KnowsAll s.mentions) ∧
    (c.env.Closed ∧ c.env.Acyclic ↔ c.env.StraysHarmless load depth stack) ∧
    (c.env.Acyclic ↔ WellFounded fun b a => c.env.Uses a b) ∧
    (c.env.Acyclic → ∀ call bindings, (⟨c.env, call, bindings⟩ : Plan.Scope).Suffices) := by
  subst hrun
  obtain ⟨hsteps, hstatements⟩ := Compilation.kept_of_run kept_mentions hresolved
  refine ⟨fun s hs => ?_, (Environment.layered_of_steps hsteps).sound_iff,
    Environment.acyclic_iff_wellFounded, fun h call bindings => Plan.Scope.suffices_of_acyclic h⟩
  obtain ⟨i, hi, rfl⟩ := List.mem_iff_getElem.mp hs
  exact List.Forall₂.get hstatements (by rw [hstatements.length_eq]; exact hi) hi

/-- A module whose own concept takes the place of one that stays behind. -/
def capturingRows : Library :=
  ⟨[("m", "auto x <- __preql_internal.all_rows;\nauto __preql_internal.all_rows <- x;")],
    fun _ => "missing"⟩

/-- There a name strays to a concept that is computed from the one with the stray, so
that following its lineage never ends. -/
theorem Compilation.lineage_sound_iff_capturingRows :
    ∃ tree c, parse "import m;\nselect m.x;" = .ok tree ∧
      Compilation.run (compileModule capturingRows.load 1 []) .initial
        "import m;\nselect m.x;" tree = c ∧
      c.error = none ∧ c.env.Closed ∧ ¬ c.env.Acyclic ∧
      ¬ c.env.StraysHarmless capturingRows.load 1 [] ∧
      ¬ WellFounded fun b a => c.env.Uses a b := by
  have hcomputed : ∃ tree, parse "import m;\nselect m.x;" = .ok tree ∧
      (fun c : Compilation => some (c.error, decide c.env.Closed,
          (c.env.concept? "m.x").map Concept.uses,
          (c.env.concept? "m.__preql_internal.all_rows").map Concept.uses))
        (Compilation.run (compileModule capturingRows.load 1 []) .initial
          "import m;\nselect m.x;" tree) =
        some (none, true, some ["m.__preql_internal.all_rows"], some ["m.x"]) := by
    apply exists_tree
    decide +kernel
  obtain ⟨tree, hparse, hcomputed⟩ := hcomputed
  simp only [Option.some.injEq, Prod.mk.injEq, Option.map_eq_some_iff] at hcomputed
  obtain ⟨hresolved, hclosed, ⟨c, hc, huses⟩, d, hd, huses'⟩ := hcomputed
  obtain ⟨-, hsound, hends, -⟩ := Compilation.lineage_sound_iff rfl hresolved
  have hforth : Environment.Uses _ "m.x" "m.__preql_internal.all_rows" := ⟨c, hc, by simp [huses]⟩
  have hback : Environment.Uses _ "m.__preql_internal.all_rows" "m.x" := ⟨d, hd, by simp [huses']⟩
  have hcircle : ¬ Environment.Acyclic _ := fun h => h "m.x" (.tail (.single hforth) hback)
  exact ⟨tree, _, hparse, rfl, hresolved, of_decide_eq_true hclosed, hcircle,
    fun h => hcircle (hsound.mpr h).2, fun h => hcircle (hends.mpr h)⟩

/-- A module that hands over a concept but not what it is computed from. -/
def countingRows : Library :=
  ⟨[("m", "auto n <- __preql_internal.all_rows;")], fun _ => "missing"⟩

/-- There the name of the count of all rows strays to nothing. -/
theorem Compilation.lineage_open_countingRows :
    ∃ tree c, parse "import m;\nselect m.n;" = .ok tree ∧
      Compilation.run (compileModule countingRows.load 1 []) .initial
        "import m;\nselect m.n;" tree = c ∧ c.error = none ∧ ¬ c.env.Closed := by
  have hcomputed : ∃ tree, parse "import m;\nselect m.n;" = .ok tree ∧
      (fun c : Compilation => some (c.error, decide c.env.Closed))
        (Compilation.run (compileModule countingRows.load 1 []) .initial
          "import m;\nselect m.n;" tree) = some (none, false) := by
    apply exists_tree
    decide +kernel
  obtain ⟨tree, hparse, hcomputed⟩ := hcomputed
  obtain ⟨hresolved, hopen⟩ := Prod.mk.inj (Option.some.inj hcomputed)
  exact ⟨tree, _, hparse, rfl, hresolved, of_decide_eq_false hopen⟩

end ConceptQuery
