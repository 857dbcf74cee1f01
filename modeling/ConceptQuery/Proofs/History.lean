import Mathlib.Data.List.Count
import ConceptQuery.Proofs.Additions
import ConceptQuery.Proofs.ImportGraph
import ConceptQuery.Proofs.Resolving

/-! # Calls in a row

A builder takes its calls in any order, and each of them may fail. In every such
history the environment before a call heads the one after it. An imported module has a
builder of its own, which gets four calls and starts with an environment that knows
nothing, so the same holds there. A pass lets its two calls through in one order only.
It therefore returns statements once at most, and a whole compilation ends in one of
two states, with metadata of all named concepts in the one and none in the other.
-/
namespace ConceptQuery
open Compile Environment

namespace Builder

/-- What a builder may be asked to do. -/
inductive Call where
  | setText (text : String)
  | prepare
  | transform (importer : Importer) (tree : Tree Leaf)
  | runSecondPass

/-- The builder after a call, whether the call succeeds or not. -/
def Call.next : Call → Builder → Builder
  | .setText text, b => b.setText text
  | .prepare, b => b.prepare
  | .transform importer tree, b => (b.transform importer tree).2
  | .runSecondPass, b => b.runSecondPass.2

def after (b : Builder) (calls : List Call) : Builder :=
  calls.foldl (fun b call => call.next b) b

/-- The calls that compile one text. -/
def textCalls (importer : Importer) (text : String) (tree : Tree Leaf) : List Call :=
  [.setText text, .prepare, .transform importer tree, .runSecondPass]

/-- A call that the builder of the module behind a path may get, or the builder of one
that this module imports, together with that builder as it is then. -/
inductive Nested (load : Loader) : Nat → List String → String → Builder → Call → Prop where
  | own {depth stack path text tree before call later}
      (hopen : openModule load stack path = .ok (text, tree))
      (hcalls : textCalls (compileModule load depth (stack ++ [path])) text tree =
        before ++ call :: later) :
      Nested load (depth + 1) stack path (after { env := .initial } before) call
  | imported {depth stack path text tree other b call}
      (hopen : openModule load stack path = .ok (text, tree)) (himport : other ∈ importsOf tree)
      (hnested : Nested load depth (stack ++ [path]) other b call) :
      Nested load (depth + 1) stack path b call

theorem additions_firstPasses (importer : Importer) (nodes : List (Tree Leaf)) (b : Builder) :
    Additions b.env (firstPasses importer nodes b).2.env := by
  induction nodes generalizing b with
  | nil => exact .refl
  | cons node nodes ih =>
    have hnode := adds_firstPass importer b.lines node b.env
    rw [firstPasses]
    split
    · rename_i slot env hrun
      rw [hrun] at hnode
      exact hnode.trans (ih { b with env, slots := b.slots ++ [slot] })
    · rename_i e env hrun
      rw [hrun] at hnode
      exact hnode

theorem additions_transform (importer : Importer) (tree : Tree Leaf) (b : Builder) :
    Additions b.env (b.transform importer tree).2.env := by
  unfold transform
  split
  · exact additions_firstPasses importer tree.nodes b
  · exact .refl

theorem additions_runSecondPass (b : Builder) : Additions b.env b.runSecondPass.2.env := by
  unfold runSecondPass
  split
  · exact adds_secondPass b.lines b.slots b.env
  · exact .refl

theorem Call.additions (call : Call) (b : Builder) : Additions b.env (call.next b).env := by
  cases call with
  | setText text => exact .refl
  | prepare => exact .refl
  | transform importer tree => exact additions_transform importer tree b
  | runSecondPass => exact additions_runSecondPass b

theorem additions_after (b : Builder) (calls : List Call) :
    Additions b.env (b.after calls).env := by
  induction calls generalizing b with
  | nil => exact .refl
  | cons call calls ih => exact (call.additions b).trans (ih (call.next b))

theorem Nested.filed {load : Loader} {depth : Nat} {stack : List String} {path : String}
    {b : Builder} {call : Call} (h : Nested load depth stack path b call) : b.env.Filed := by
  induction h with
  | own hopen hcalls => exact (additions_after _ _).filed filed_initial
  | imported hopen himport hnested ih => exact ih

end Builder

namespace Compile
variable {importer : Importer} {text : String} {tree : Tree Leaf}

/-- What a module leaves is what its builder has after the four calls. -/
theorem env_of_compileText {module : Environment}
    (h : compileText importer text tree = .ok module) :
    (Builder.after { env := .initial } (Builder.textCalls importer text tree)).env = module := by
  have hafter : Builder.after { env := .initial } (Builder.textCalls importer text tree) =
      ((({ env := .initial : Builder }.setText text).prepare).transform importer
        tree).2.runSecondPass.2 := rfl
  rw [hafter]
  unfold compileText at h
  dsimp only at h
  split at h
  · cases h
  · rename_i u b htransform
    rw [htransform]
    split at h
    · cases h
    · rename_i statements b' hsecond
      rw [hsecond]
      exact Except.ok.inj h

theorem additions_compileModule {load : Loader} {depth : Nat} {stack : List String}
    {path : String} {module : Environment} (h : compileModule load depth stack path = .ok module) :
    Additions .initial module := by
  cases depth with
  | zero =>
    rw [compileModule] at h
    split at h
    · cases h
    · cases h
  | succ depth =>
    rw [compileModule] at h
    split at h
    · cases h
    · rw [← env_of_compileText h]
      exact Builder.additions_after { env := .initial } _

end Compile

/-- From an empty pass to a declared one, from there to a resolved one, and from either
to a failed one. -/
inductive PassState.Moves : PassState → PassState → Prop where
  | declare : Moves .empty .declared
  | failToDeclare : Moves .empty .failed
  | resolve : Moves .declared .resolved
  | failToResolve : Moves .declared .failed

/-- How often a pass in this state can still return statements. -/
def PassState.chances : PassState → Nat
  | .empty | .declared => 1
  | .resolved | .failed => 0

namespace Pass

/-- What a pass may be asked to do. -/
inductive Call where
  | declare (importer : Importer) (text : String) (tree : Tree Leaf)
  | resolve

/-- The only state in which the call is allowed. -/
def Call.opens : Call → PassState
  | .declare .. => .empty
  | .resolve => .declared

/-- What the call answers, with statements if it resolves, and the pass after it. -/
def Call.run : Call → Pass → Except CompileError (Option (List Statement)) × Pass
  | .declare importer text tree, p =>
    ((p.declare importer text tree).1.map fun _ => none, (p.declare importer text tree).2)
  | .resolve, p => (p.resolve.1.map some, p.resolve.2)

/-- The answers to calls in a row. -/
def answers : Pass → List Call → List (Except CompileError (Option (List Statement)))
  | _, [] => []
  | p, call :: calls => (call.run p).1 :: answers (call.run p).2 calls

def returnsStatements : Except CompileError (Option (List Statement)) → Bool
  | .ok (some _) => true
  | _ => false

variable {p : Pass} {call : Call}

theorem Call.run_of_refused (h : p.state ≠ call.opens) : call.run p = (.error .notPrepared, p) := by
  cases call with
  | declare importer text tree =>
    have hrefused : p.declare importer text tree = (.error .notPrepared, p) := if_neg h
    rw [run, hrefused]
    rfl
  | resolve =>
    have hrefused : p.resolve = (.error .notPrepared, p) := if_neg h
    rw [run, hrefused]
    rfl

theorem declare_of_empty (h : p.state = .empty) (importer : Importer) (text : String)
    (tree : Tree Leaf) : ∃ result b,
      (p.builder.setText text).prepare.transform importer tree = (result, b) ∧
      p.declare importer text tree = (result, ⟨b, if result.toBool then .declared else .failed⟩) := by
  rcases htransform : (p.builder.setText text).prepare.transform importer tree with ⟨result, b⟩
  refine ⟨result, b, rfl, ?_⟩
  rw [declare, if_pos h, htransform]
  cases result with
  | ok u => rfl
  | error e => rfl

theorem resolve_of_declared (h : p.state = .declared) : ∃ result b,
    p.builder.runSecondPass = (result, b) ∧
    p.resolve = (result, ⟨b, if result.toBool then .resolved else .failed⟩) := by
  rcases hsecond : p.builder.runSecondPass with ⟨result, b⟩
  refine ⟨result, b, rfl, ?_⟩
  rw [resolve, if_pos h, hsecond]
  cases result with
  | ok statements => rfl
  | error e => rfl

theorem Call.additions (call : Call) (p : Pass) :
    Additions p.builder.env (call.run p).2.builder.env := by
  by_cases hopens : p.state = call.opens
  · cases call with
    | declare importer text tree =>
      obtain ⟨result, b, htransform, hdeclare⟩ := declare_of_empty hopens importer text tree
      have hadds := Builder.additions_transform importer tree (p.builder.setText text).prepare
      rw [htransform] at hadds
      rw [run, hdeclare]
      exact hadds
    | resolve =>
      obtain ⟨result, b, hsecond, hresolve⟩ := resolve_of_declared hopens
      have hadds := Builder.additions_runSecondPass p.builder
      rw [hsecond] at hadds
      rw [run, hresolve]
      exact hadds
  · rw [run_of_refused hopens]

/-- A call that is allowed moves the pass, and fails it exactly if it fails itself. -/
theorem Call.run_of_allowed (h : p.state = call.opens) :
    p.state.Moves (call.run p).2.state ∧
      ((call.run p).2.state = .failed ↔ ∃ e, (call.run p).1 = .error e) := by
  rw [h]
  cases call with
  | declare importer text tree =>
    obtain ⟨result, b, -, hdeclare⟩ := declare_of_empty h importer text tree
    rw [run, hdeclare]
    cases result with
    | ok u => exact ⟨.declare, by simp [Except.toBool, Except.map]⟩
    | error e => exact ⟨.failToDeclare, by simp [Except.toBool, Except.map]⟩
  | resolve =>
    obtain ⟨result, b, -, hresolve⟩ := resolve_of_declared h
    rw [run, hresolve]
    cases result with
    | ok statements => exact ⟨.resolve, by simp [Except.toBool, Except.map]⟩
    | error e => exact ⟨.failToResolve, by simp [Except.toBool, Except.map]⟩

theorem Call.chances_run (call : Call) (p : Pass) :
    (if returnsStatements (call.run p).1 then 1 else 0) + (call.run p).2.state.chances ≤
      p.state.chances := by
  by_cases hopens : p.state = call.opens
  · rw [hopens]
    cases call with
    | declare importer text tree =>
      obtain ⟨result, b, -, hdeclare⟩ := declare_of_empty hopens importer text tree
      rw [run, hdeclare]
      cases result with
      | ok u => exact Nat.le_refl 1
      | error e => exact Nat.zero_le 1
    | resolve =>
      obtain ⟨result, b, -, hresolve⟩ := resolve_of_declared hopens
      rw [run, hresolve]
      cases result with
      | ok statements => exact Nat.le_refl 1
      | error e => exact Nat.zero_le 1
  · rw [run_of_refused hopens]
    exact (Nat.zero_add _).le

/-- The chances of a pass bound the answers with statements, whatever is called. -/
theorem countP_answers (p : Pass) (calls : List Call) :
    (p.answers calls).countP returnsStatements ≤ p.state.chances := by
  induction calls generalizing p with
  | nil => exact Nat.zero_le _
  | cons call calls ih =>
    have hcall := call.chances_run p
    have hcalls := ih (call.run p).2
    rw [answers, List.countP_cons]
    omega

end Pass

namespace Environment

theorem Tidy.keys_metadata {env : Environment} (h : env.Tidy) : env.metadata.keys =
    (env.userConcepts.filter fun c => c.name ≠ "").map Concept.address := by
  have hshown : env.userConcepts.filter (fun c => c.name ≠ "") =
      env.concepts.values.filter Concept.isShown := by
    rw [userConcepts, List.filter_filter]
    rfl
  rw [hshown, Catalog.keys, h.entries_metadata, List.map_map]
  rfl

end Environment

namespace Compilation

/-- How a compilation ends: resolved, or failed with nothing to show. -/
theorem run_ends (importer : Importer) (env : Environment) (text : String) (tree : Tree Leaf)
    {c : Compilation} (hrun : Compilation.run importer env text tree = c) :
    Additions env c.env ∧
      (c.state = .resolved ∧ c.error = none ∧ c.metadata = c.env.metadata ∨
        c.state = .failed ∧ c.metadata = .empty ∧ c.statements = [] ∧ ∃ e, c.error = some e) := by
  obtain ⟨declared, b, htransform, hdeclare⟩ :=
    Pass.declare_of_empty (p := { builder := { env } }) rfl importer text tree
  have hfirst := Builder.additions_transform importer tree
    (({ env := env : Builder }.setText text).prepare)
  rw [htransform] at hfirst
  rw [← hrun, run, hdeclare]
  cases declared with
  | error e => exact ⟨hfirst, .inr ⟨rfl, rfl, rfl, e, rfl⟩⟩
  | ok u =>
    obtain ⟨resolved, b', hsecond, hresolve⟩ :=
      Pass.resolve_of_declared (p := ⟨b, .declared⟩) rfl
    have hboth := Builder.additions_runSecondPass b
    rw [hsecond] at hboth
    have hpass : (⟨b, if (Except.ok u : Except CompileError Unit).toBool then .declared
        else .failed⟩ : Pass) = ⟨b, .declared⟩ := rfl
    dsimp only
    rw [hpass, hresolve]
    cases resolved with
    | error e => exact ⟨hfirst.trans hboth, .inr ⟨rfl, rfl, rfl, e, rfl⟩⟩
    | ok statements => exact ⟨hfirst.trans hboth, .inl ⟨rfl, rfl, rfl⟩⟩

/-- What a compilation leaves, whether it fails or not, requests lead to as well. -/
theorem exists_env_eq_after (importer : Importer) (env : Environment) (text : String)
    (tree : Tree Leaf) :
    ∃ requests, (Compilation.run importer env text tree).env = env.after requests :=
  (run_ends importer env text tree rfl).1.exists_requests

end Compilation

/-- Over all calls in a row, on the builder of a document and on those of the modules
that it imports, each environment heads the next, and names stay those that the entries
give themselves. A pass refuses a call in the wrong state and is left as it was; any
other call moves it on, so it returns statements once at most. A whole compilation is
resolved, with the metadata of all named concepts that users may see and in their order,
or has failed, with an error and nothing else. -/
theorem Environment.append_only :
    initial.Filed ∧
    (∀ (b : Builder) (calls : List Builder.Call) (call : Builder.Call),
      (b.after calls).env.Heads (call.next (b.after calls)).env ∧
      (b.env.Filed → (b.after calls).env.Filed)) ∧
    (∀ load depth stack path b call, Builder.Nested load depth stack path b call →
      b.env.Heads (call.next b).env ∧ b.env.Filed ∧ (call.next b).env.Filed) ∧
    (∀ load depth stack path module, compileModule load depth stack path = .ok module →
      initial.Heads module ∧ module.Filed) ∧
    (∀ (p : Pass) (call : Pass.Call),
      p.builder.env.Heads (call.run p).2.builder.env ∧
      (p.builder.env.Filed → (call.run p).2.builder.env.Filed) ∧
      (p.state ≠ call.opens → call.run p = (.error .notPrepared, p)) ∧
      (p.state = call.opens → p.state.Moves (call.run p).2.state ∧
        ((call.run p).2.state = .failed ↔ ∃ e, (call.run p).1 = .error e))) ∧
    (∀ (p : Pass) (calls : List Pass.Call),
      (p.answers calls).countP Pass.returnsStatements ≤ 1) ∧
    ∀ importer env text tree, env.Filed →
      ∀ c, Compilation.run importer env text tree = c → env.Heads c.env ∧ c.env.Filed ∧
        (c.state = .resolved ∧ c.error = none ∧
            c.metadata.keys = (c.env.userConcepts.filter fun d => d.name ≠ "").map Concept.address ∨
          c.state = .failed ∧ c.metadata = .empty ∧ c.statements = [] ∧ ∃ e, c.error = some e) := by
  refine ⟨filed_initial, ?_, ?_, ?_, ?_, ?_, ?_⟩
  · intro b calls call
    exact ⟨(call.additions _).heads, (Builder.additions_after b calls).filed⟩
  · intro load depth stack path b call hnested
    have hadds := call.additions b
    exact ⟨hadds.heads, hnested.filed, hadds.filed hnested.filed⟩
  · intro load depth stack path module hmodule
    have hadds := additions_compileModule hmodule
    exact ⟨hadds.heads, hadds.filed filed_initial⟩
  · intro p call
    have hadds := call.additions p
    exact ⟨hadds.heads, hadds.filed, Pass.Call.run_of_refused, Pass.Call.run_of_allowed⟩
  · intro p calls
    have hchances : p.state.chances ≤ 1 := by cases p.state <;> decide
    exact (p.countP_answers calls).trans hchances
  · intro importer env text tree hfiled c hrun
    obtain ⟨hadds, hends⟩ := Compilation.run_ends importer env text tree hrun
    have hfinal := hadds.filed hfiled
    refine ⟨hadds.heads, hfinal, ?_⟩
    rcases hends with ⟨hstate, herror, hmetadata⟩ | hfailed
    · exact .inl ⟨hstate, herror, by rw [hmetadata, hfinal.keys_metadata]⟩
    · exact .inr hfailed

/-- A document that imports a module and then declares one name in two ways: what came
before the conflict stays. -/
theorem Environment.append_only_conflict :
    let written := "key a int;\ndatasource d (x: a) address t;"
    let library : Library := ⟨[("m", written)], fun _ => "nowhere"⟩
    let text := "import m;\nkey b int;\nkey b string;"
    ∃ tree, parse text = .ok tree ∧
      let b : Builder := { env := .initial }
      let calls : List Builder.Call := [.setText text, .prepare]
      let transform : Builder.Call := .transform library.importer tree
      let declare : Pass.Call := .declare library.importer text tree
      let p : Pass := { builder := b }
      let c := Compilation.run library.importer .initial text tree
      (b.after (calls ++ [transform])).env.concepts.keys =
        ["__preql_internal.all_rows", "m.a", "m.a.count", "local.b", "local.b.count"] ∧
      (b.after calls).env.Heads (b.after (calls ++ [transform])).env ∧
      (b.after (calls ++ [transform])).env.Filed ∧
      (∃ module call, Builder.Nested library.load 1 [] "m" module call ∧ module.env.Filed) ∧
      (∃ module, compileModule library.load 1 [] "m" = .ok module ∧ module.Filed) ∧
      Pass.Call.resolve.run p = (.error .notPrepared, p) ∧
      p.state.Moves (declare.run p).2.state ∧
      (p.answers [declare, .resolve]).countP Pass.returnsStatements ≤ 1 ∧
      c.error = some (.conflictingDeclaration "local.b" 3) ∧
      c.state = .failed ∧ c.metadata = .empty ∧ initial.Heads c.env := by
  intro written library text
  obtain ⟨hinitial, hbuilder, hnested, hmodule, hpass, hanswers, hrun⟩ := append_only
  obtain ⟨tree, hparse, hends⟩ : ∃ tree, parse text = .ok tree ∧
      some ((((({ env := .initial : Builder }.setText text).prepare).transform library.importer
        tree).2.env.concepts.keys), (Compilation.run library.importer .initial text tree).error) =
      some (["__preql_internal.all_rows", "m.a", "m.a.count", "local.b", "local.b.count"],
        some (.conflictingDeclaration "local.b" 3)) := by
    apply exists_tree
    decide +kernel
  obtain ⟨hkeys, herror⟩ := Prod.mk.inj (Option.some.inj hends)
  obtain ⟨moduleTree, hmoduleTree, -⟩ : ∃ tree, parse written = .ok tree ∧ some () = some () := by
    apply exists_tree
    decide +kernel
  have hopen : openModule library.load [] "m" = .ok (written, moduleTree) := by
    have hload : library.load "m" = .ok written := by rfl
    rw [openModule, hload]
    simp only [List.contains_nil, Bool.false_eq_true, if_false, hmoduleTree]
  have hcall : Builder.Nested library.load 1 [] "m"
      ({ env := .initial : Builder }.after [.setText written, .prepare])
      (.transform (compileModule library.load 0 ["m"]) moduleTree) := .own hopen rfl
  obtain ⟨module, hcompiled⟩ : ∃ module, compileModule library.load 1 [] "m" = .ok module := by
    have hok : (compileModule library.load 1 [] "m").toBool = true := by decide +kernel
    cases hresult : compileModule library.load 1 [] "m" with
    | ok module => exact ⟨module, rfl⟩
    | error e =>
      rw [hresult] at hok
      cases hok
  obtain ⟨hheads, hfiled, hcases⟩ := hrun library.importer .initial text tree hinitial _ rfl
  have hstep := hbuilder { env := .initial } [.setText text, .prepare]
    (.transform library.importer tree)
  refine ⟨tree, hparse, hkeys, hstep.1, (hbuilder _ _ .prepare).2 hinitial,
    ⟨_, _, hcall, (hnested _ _ _ _ _ _ hcall).2.1⟩,
    ⟨module, hcompiled, (hmodule _ _ _ _ _ hcompiled).2⟩, ?_, ?_, hanswers _ _, herror, ?_⟩
  · exact (hpass _ _).2.2.1 (by decide)
  · exact ((hpass _ _).2.2.2 rfl).1
  · rcases hcases with ⟨-, hnone, -⟩ | ⟨hstate, hmetadata, -, -⟩
    · rw [herror] at hnone
      cases hnone
    · exact ⟨hstate, hmetadata, hheads⟩

end ConceptQuery
