import Mathlib.Data.List.Forall2
import ConceptQuery.Proofs.Growth

/-! # What holds of all statements in the end

A statement is compiled in the first pass, in one of the rounds over what waits,
with the datasources, or last. `Kept` is what has to be shown of each of these
moments, in an environment that came about step by step, and that the environment may
grow later; then it holds of every statement once the document is compiled:
`Compilation.kept_of_run`.
-/
namespace ConceptQuery

namespace Compile
open Environment Build

/-- A relation between a statement as written, its slot and the environment that
compiling from a first environment on establishes and keeps. -/
structure Kept (importer : Importer) (lines : List (List Char)) (start : Environment)
    (R : Tree Leaf → Slot → Environment → Prop) : Prop where
  step : ∀ {node slot env env'}, Step importer env env' → R node slot env → R node slot env'
  first : ∀ {node slot env env'}, Steps importer start env →
    Gives (firstPass importer lines node) env slot env' → R node slot env'
  concept : ∀ {node m s env env'}, Steps importer start env → isConceptNode m = true →
    R node (.pending m) env → Gives (tryConcept lines m) env (.ok s) env' → R node (.ready s) env'
  datasource : ∀ {node m s env env'}, Steps importer start env → m.kind = .datasource →
    R node (.pending m) env → Gives (datasource m) env s env' → R node (.ready s) env'
  query : ∀ {node m s env env'}, Steps importer start env → R node (.pending m) env →
    Gives (query m) env s env' → R node (.ready s) env'

variable {importer : Importer} {lines : List (List Char)} {start : Environment}
  {R : Tree Leaf → Slot → Environment → Prop} {env env' : Environment}

/-- Every statement stands in the relation to its slot. -/
abbrev Filled (R : Tree Leaf → Slot → Environment → Prop) (env : Environment) :
    List (Tree Leaf) → List Slot → Prop :=
  List.Forall₂ fun node slot => R node slot env

namespace Kept
variable (hR : Kept importer lines start R)
include hR

theorem steps {node : Tree Leaf} {slot : Slot} (h : Steps importer env env')
    (hslot : R node slot env) : R node slot env' := by
  induction h with
  | refl => exact hslot
  | tail _ hstep ih => exact hR.step hstep ih

theorem steps_filled {nodes : List (Tree Leaf)} {slots : List Slot} (h : Steps importer env env')
    (hslots : Filled R env nodes slots) : Filled R env' nodes slots :=
  hslots.imp fun _ _ hslot => hR.steps h hslot

theorem sweep_filled {nodes : List (Tree Leaf)} {slots : List Slot} {round : Round}
    (hstart : Steps importer start env) (hslots : Filled R env nodes slots)
    (h : Gives (sweep lines slots) env round env') :
    Steps importer env env' ∧ Filled R env' nodes round.slots := by
  induction slots generalizing env nodes round with
  | nil =>
    cases hslots
    obtain ⟨rfl, rfl⟩ := gives_pure.mp h
    exact ⟨.refl, .nil⟩
  | cons slot slots ih =>
    obtain ⟨node, rest, hslot, hrest, rfl⟩ := List.forall₂_cons_right_iff.mp hslots
    cases slot with
    | ready s =>
      obtain ⟨more, between, hmore, hpure⟩ := gives_bind.mp h
      obtain ⟨rfl, rfl⟩ := gives_pure.mp hpure
      obtain ⟨hsteps, hfilled⟩ := ih hstart hrest hmore
      exact ⟨hsteps, .cons (hR.steps hsteps hslot) hfilled⟩
    | pending m =>
      rw [sweep] at h
      split at h
      · rename_i hm
        obtain ⟨result, between, htry, hrest'⟩ := gives_bind.mp h
        have htried : Steps importer env between := (brings_tryConcept htry).steps
        cases result with
        | ok s =>
          obtain ⟨more, after, hmore, hpure⟩ := gives_bind.mp hrest'
          obtain ⟨rfl, rfl⟩ := gives_pure.mp hpure
          obtain ⟨hsteps, hfilled⟩ := ih (hstart.trans htried) (hR.steps_filled htried hrest) hmore
          exact ⟨htried.trans hsteps,
            .cons (hR.steps hsteps (hR.concept hstart hm hslot htry)) hfilled⟩
        | error name =>
          obtain ⟨more, after, hmore, hpure⟩ := gives_bind.mp hrest'
          obtain ⟨rfl, rfl⟩ := gives_pure.mp hpure
          obtain ⟨hsteps, hfilled⟩ := ih (hstart.trans htried) (hR.steps_filled htried hrest) hmore
          exact ⟨htried.trans hsteps, .cons (hR.steps (htried.trans hsteps) hslot) hfilled⟩
      · obtain ⟨more, between, hmore, hpure⟩ := gives_bind.mp h
        obtain ⟨rfl, rfl⟩ := gives_pure.mp hpure
        obtain ⟨hsteps, hfilled⟩ := ih hstart hrest hmore
        exact ⟨hsteps, .cons (hR.steps hsteps hslot) hfilled⟩

theorem resolvePending_filled {fuel : Nat} {nodes : List (Tree Leaf)} {slots slots' : List Slot}
    (hstart : Steps importer start env) (hslots : Filled R env nodes slots)
    (h : Gives (resolvePending lines fuel slots) env slots' env') :
    Steps importer env env' ∧ Filled R env' nodes slots' := by
  induction fuel generalizing env slots with
  | zero =>
    obtain ⟨rfl, rfl⟩ := gives_pure.mp h
    exact ⟨.refl, hslots⟩
  | succ fuel ih =>
    obtain ⟨round, between, hround, hrest⟩ := gives_bind.mp h
    obtain ⟨hsteps, hfilled⟩ := hR.sweep_filled hstart hslots hround
    split at hrest
    · obtain ⟨rfl, rfl⟩ := gives_pure.mp hrest
      exact ⟨hsteps, hfilled⟩
    · split at hrest
      · obtain ⟨hmore, hdone⟩ := ih (hstart.trans hsteps) hfilled hrest
        exact ⟨hsteps.trans hmore, hdone⟩
      · exact absurd hrest not_gives_throw

theorem bindDatasources_filled {nodes : List (Tree Leaf)} {slots slots' : List Slot}
    (hstart : Steps importer start env) (hslots : Filled R env nodes slots)
    (h : Gives (bindDatasources slots) env slots' env') :
    Steps importer env env' ∧ Filled R env' nodes slots' := by
  induction slots generalizing env nodes slots' with
  | nil =>
    cases hslots
    obtain ⟨rfl, rfl⟩ := gives_pure.mp h
    exact ⟨.refl, .nil⟩
  | cons slot slots ih =>
    obtain ⟨node, rest, hslot, hrest, rfl⟩ := List.forall₂_cons_right_iff.mp hslots
    cases slot with
    | ready s =>
      obtain ⟨more, between, hmore, hpure⟩ := gives_bind.mp h
      obtain ⟨rfl, rfl⟩ := gives_pure.mp hpure
      obtain ⟨hsteps, hfilled⟩ := ih hstart hrest hmore
      exact ⟨hsteps, .cons (hR.steps hsteps hslot) hfilled⟩
    | pending m =>
      rw [bindDatasources] at h
      dsimp only at h
      split at h
      · rename_i hm
        obtain ⟨slot, between, hslot', hrest'⟩ := gives_bind.mp h
        obtain ⟨s, hsource, rfl⟩ := gives_map.mp hslot'
        have hbound : Steps importer env between := (brings_datasource hsource).steps
        obtain ⟨more, after, hmore, hpure⟩ := gives_bind.mp hrest'
        obtain ⟨rfl, rfl⟩ := gives_pure.mp hpure
        obtain ⟨hsteps, hfilled⟩ := ih (hstart.trans hbound) (hR.steps_filled hbound hrest) hmore
        exact ⟨hbound.trans hsteps,
          .cons (hR.steps hsteps (hR.datasource hstart hm hslot hsource)) hfilled⟩
      · obtain ⟨slot, between, hpending, hrest'⟩ := gives_bind.mp h
        obtain ⟨rfl, rfl⟩ := gives_pure.mp hpending
        obtain ⟨more, after, hmore, hpure⟩ := gives_bind.mp hrest'
        obtain ⟨rfl, rfl⟩ := gives_pure.mp hpure
        obtain ⟨hsteps, hfilled⟩ := ih hstart hrest hmore
        exact ⟨hsteps, .cons (hR.steps hsteps hslot) hfilled⟩

theorem finish_filled {nodes : List (Tree Leaf)} {slots : List Slot} {statements : List Statement}
    (hstart : Steps importer start env) (hslots : Filled R env nodes slots)
    (h : Gives (finish slots) env statements env') :
    Steps importer env env' ∧
      List.Forall₂ (fun node s => R node (.ready s) env') nodes statements := by
  induction slots generalizing env nodes statements with
  | nil =>
    cases hslots
    obtain ⟨rfl, rfl⟩ := gives_pure.mp h
    exact ⟨.refl, .nil⟩
  | cons slot slots ih =>
    obtain ⟨node, rest, hslot, hrest, rfl⟩ := List.forall₂_cons_right_iff.mp hslots
    cases slot with
    | ready s =>
      obtain ⟨more, between, hmore, hpure⟩ := gives_bind.mp h
      obtain ⟨rfl, rfl⟩ := gives_pure.mp hpure
      obtain ⟨hsteps, hdone⟩ := ih hstart hrest hmore
      exact ⟨hsteps, .cons (hR.steps hsteps hslot) hdone⟩
    | pending m =>
      obtain ⟨s, between, hquery, hrest'⟩ := gives_bind.mp h
      have hgrown : Steps importer env between := (brings_query hquery).steps
      obtain ⟨more, after, hmore, hpure⟩ := gives_bind.mp hrest'
      obtain ⟨rfl, rfl⟩ := gives_pure.mp hpure
      obtain ⟨hsteps, hdone⟩ := ih (hstart.trans hgrown) (hR.steps_filled hgrown hrest) hmore
      exact ⟨hgrown.trans hsteps, .cons (hR.steps hsteps (hR.query hstart hslot hquery)) hdone⟩

theorem secondPass_filled {nodes : List (Tree Leaf)} {slots : List Slot}
    {statements : List Statement} (hstart : Steps importer start env)
    (hslots : Filled R env nodes slots)
    (h : Gives (secondPass lines slots) env statements env') :
    Steps importer env env' ∧
      List.Forall₂ (fun node s => R node (.ready s) env') nodes statements := by
  obtain ⟨resolved, between, hresolve, hrest⟩ := gives_bind.mp h
  obtain ⟨bound, after, hbind, hfinish⟩ := gives_bind.mp hrest
  obtain ⟨hsteps, hfilled⟩ := hR.resolvePending_filled hstart hslots hresolve
  obtain ⟨hsteps', hfilled⟩ := hR.bindDatasources_filled (hstart.trans hsteps) hfilled hbind
  obtain ⟨hsteps'', hdone⟩ := hR.finish_filled ((hstart.trans hsteps).trans hsteps') hfilled hfinish
  exact ⟨(hsteps.trans hsteps').trans hsteps'', hdone⟩

theorem firstPasses_filled {done nodes : List (Tree Leaf)} {b b' : Builder} {u : Unit}
    (hstart : Steps importer start b.env) (hlines : b.lines = lines)
    (hslots : Filled R b.env done b.slots)
    (h : Builder.firstPasses importer nodes b = (.ok u, b')) :
    Steps importer b.env b'.env ∧ Filled R b'.env (done ++ nodes) b'.slots ∧
      b'.lines = lines ∧ b'.prepared = b.prepared := by
  induction nodes generalizing done b with
  | nil =>
    obtain ⟨-, rfl⟩ := Prod.mk.inj h
    rw [List.append_nil]
    exact ⟨.refl, hslots, hlines, rfl⟩
  | cons node nodes ih =>
    rw [Builder.firstPasses] at h
    split at h
    · rename_i slot env hfirst
      rw [hlines] at hfirst
      have hgrown : Steps importer b.env env := (brings_firstPass hfirst).steps
      have hslot : R node slot env := hR.first hstart hfirst
      have hfilled : Filled R env (done ++ [node]) (b.slots ++ [slot]) :=
        List.rel_append (hR.steps_filled hgrown hslots) (.cons hslot .nil)
      have hnext : ({ b with env, slots := b.slots ++ [slot] } : Builder).lines = lines := hlines
      obtain ⟨hsteps, hall, hlines, hprepared⟩ := ih (hstart.trans hgrown) hnext hfilled h
      rw [List.append_assoc] at hall
      exact ⟨hgrown.trans hsteps, hall, hlines, hprepared⟩
    · cases (Prod.mk.inj h).1

end Kept

/-- The start of both passes over a text. -/
def starting (env : Environment) (text : String) : Builder :=
  (({ env } : Builder).setText text).prepare

/-- Both passes over the statements of a tree. -/
theorem Kept.passes_filled {text : String} {tree : Tree Leaf} {b b' : Builder} {u : Unit}
    {statements : List Statement} (hR : Kept importer (linesOf text) env R)
    (hfirst : (starting env text).transform importer tree = (.ok u, b))
    (hsecond : b.runSecondPass = (.ok statements, b')) :
    Steps importer env b'.env ∧
      List.Forall₂ (fun node s => R node (.ready s) b'.env) tree.nodes statements := by
  have hpasses : Builder.firstPasses importer tree.nodes (starting env text) = (.ok u, b) := hfirst
  have hempty : Filled R env [] [] := .nil
  obtain ⟨hsteps, hfilled, hlines, hprepared⟩ := hR.firstPasses_filled .refl rfl hempty hpasses
  have hready : b.prepared = true := hprepared
  rw [Builder.runSecondPass, if_pos hready, hlines] at hsecond
  obtain ⟨hresult, rfl⟩ := Prod.mk.inj hsecond
  have hgives : Gives (secondPass (linesOf text) b.slots) b.env statements
      ((secondPass (linesOf text) b.slots).run.run b.env).2 := Prod.ext hresult rfl
  obtain ⟨hmore, hdone⟩ := hR.secondPass_filled hsteps hfilled hgives
  exact ⟨hsteps.trans hmore, hdone⟩

/-- Anything at all is kept. -/
theorem kept_trivial : Kept importer lines start fun _ _ _ => True where
  step _ _ := trivial
  first _ _ := trivial
  concept _ _ _ _ := trivial
  datasource _ _ _ _ := trivial
  query _ _ _ := trivial

theorem steps_of_compileText {text : String} {tree : Tree Leaf}
    (h : compileText importer text tree = .ok env) : Steps importer .initial env := by
  unfold compileText at h
  dsimp only at h
  split at h
  · cases h
  · rename_i u b hfirst
    split at h
    · cases h
    · rename_i statements b' hsecond
      rw [← Except.ok.inj h]
      exact (kept_trivial.passes_filled hfirst hsecond).1

end Compile

open Compile Environment

/-- A document compiles if both passes succeed. -/
theorem Compilation.passes_of_run {importer : Importer} {env : Environment} {text : String}
    {tree : Tree Leaf} (h : (Compilation.run importer env text tree).error = none) :
    ∃ u b statements b', (starting env text).transform importer tree = (.ok u, b) ∧
      b.runSecondPass = (.ok statements, b') ∧
      Compilation.run importer env text tree =
        ⟨.resolved, b'.env.metadata, statements, b'.env, none⟩ := by
  rcases hfirst : (starting env text).transform importer tree with ⟨result, b⟩
  have hdeclare : (({ env } : Builder).setText text).prepare.transform importer tree =
      (result, b) := hfirst
  cases result with
  | error e =>
    simp [Compilation.run, Pass.declare, hdeclare] at h
  | ok u =>
    rcases hsecond : b.runSecondPass with ⟨result, b'⟩
    cases result with
    | error e =>
      simp [Compilation.run, Pass.declare, hdeclare, Pass.resolve, hsecond] at h
    | ok statements =>
      refine ⟨u, b, statements, b', rfl, hsecond, ?_⟩
      simp [Compilation.run, Pass.declare, hdeclare, Pass.resolve, hsecond]

/-- What is kept holds of every statement of a document that compiles, and the
environment came about step by step. -/
theorem Compilation.kept_of_run {importer : Importer} {env : Environment} {text : String}
    {tree : Tree Leaf} {R : Tree Leaf → Slot → Environment → Prop}
    (hR : Kept importer (linesOf text) env R)
    (h : (Compilation.run importer env text tree).error = none) :
    Steps importer env (Compilation.run importer env text tree).env ∧
      List.Forall₂ (fun node s => R node (.ready s) (Compilation.run importer env text tree).env)
        tree.nodes (Compilation.run importer env text tree).statements := by
  obtain ⟨u, b, statements, b', hfirst, hsecond, hrun⟩ := Compilation.passes_of_run h
  rw [hrun]
  exact hR.passes_filled hfirst hsecond

end ConceptQuery
