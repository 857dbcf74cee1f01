import Mathlib.Data.Finset.SDiff
import Mathlib.Data.Finset.Card
import ConceptQuery.Proofs.ErrorLines
import ConceptQuery.Proofs.Passes
import ConceptQuery.Proofs.Rounds

/-! # The graph of imports

A path imports another if the module behind it has an import statement for it.
Compiling a document follows this graph from the imports of the document, with the
paths being compiled on a stack. Each nested module takes a path from those that can be
loaded and are not on the stack yet, so the nesting comes to an end by itself and the
bound on its depth is never met. A path is refused as circular only if it is on the
stack, and from every path on the stack the graph leads to the one at hand.
-/
namespace ConceptQuery
namespace Compile

section Importers
variable {importer importer' : Importer} {lines : List (List Char)} {node : Tree Leaf}

theorem importStatement_congr
    (h : ∀ path, node.identifiers.head? = some path → importer path.text = importer' path.text) :
    importStatement importer node = importStatement importer' node := by
  apply ExceptT.ext
  funext env
  change (importStatement importer node).run.run env = (importStatement importer' node).run.run env
  unfold importStatement
  dsimp only
  rw [Build.run_bind, Build.run_bind, Build.run_lift]
  cases hpath : node.identifiers.head? with
  | none => rfl
  | some path =>
    dsimp only [need]
    rw [Build.run_bind, Build.run_bind, Build.run_lift, Build.run_lift, h path hpath]

/-- The first pass asks the importer for the path of its node and for nothing else. -/
theorem firstPass_congr (h : ∀ q, importedPath? node = some q → importer q = importer' q) :
    firstPass importer lines node = firstPass importer' lines node := by
  by_cases hk : node.kind = .importStatement
  · have himport : importStatement importer node = importStatement importer' node := by
      apply importStatement_congr
      intro path hpath
      apply h
      rw [importedPath?_eq hk, hpath]
      rfl
    unfold firstPass
    rw [hk]
    dsimp only
    rw [himport]
  · unfold firstPass
    split
    case h_4 himport => exact absurd himport hk
    all_goals rfl

theorem firstPasses_congr {nodes : List (Tree Leaf)} (b : Builder)
    (h : ∀ q ∈ nodes.filterMap importedPath?, importer q = importer' q) :
    Builder.firstPasses importer nodes b = Builder.firstPasses importer' nodes b := by
  induction nodes generalizing b with
  | nil => rfl
  | cons node nodes ih =>
    have hnode : firstPass importer b.lines node = firstPass importer' b.lines node := by
      apply firstPass_congr
      intro q hq
      exact h q (List.mem_filterMap.mpr ⟨node, List.mem_cons_self, hq⟩)
    have hrest : ∀ q ∈ nodes.filterMap importedPath?, importer q = importer' q := by
      intro q hq
      obtain ⟨other, hother, hpath⟩ := List.mem_filterMap.mp hq
      exact h q (List.mem_filterMap.mpr ⟨other, List.mem_cons_of_mem _ hother, hpath⟩)
    rw [Builder.firstPasses, Builder.firstPasses, hnode]
    split
    · exact ih _ hrest
    · rfl

theorem compileText_congr {text : String} {tree : Tree Leaf}
    (h : ∀ q ∈ importsOf tree, importer q = importer' q) :
    compileText importer text tree = compileText importer' text tree := by
  have hpasses : ∀ b : Builder, b.transform importer tree = b.transform importer' tree := by
    intro b
    rw [Builder.transform, Builder.transform, firstPasses_congr b h]
  unfold compileText
  dsimp only
  rw [hpasses]

/-- The errors of a statement: they have a line, or they are those of its import. -/
def Raised (importer : Importer) (node : Tree Leaf) (e : CompileError) : Prop :=
  e.HasLine ∨ ∃ q, importedPath? node = some q ∧ importer q = .error e

theorem Build.Lined.raises {α : Type} {step : Build α} (h : Build.Lined step) :
    Build.Ensures (fun _ => True) step (fun _ _ => True) (Raised importer node) := by
  intro env henv
  have hrun := h env henv
  split at hrun
  · trivial
  · exact .inl hrun

theorem importStatement_raises (hk : node.kind = .importStatement) :
    Build.Ensures (fun _ => True) (importStatement importer node) (fun _ _ => True)
      (Raised importer node) := by
  have hneed : ∀ env, Ends (fun path => node.identifiers.head? = some path) (Raised importer node)
      ((fun _ => need "import_statement" (lineOf node) "missing path" node.identifiers.head? :
        Environment → Except CompileError Leaf) env) := by
    intro env
    cases node.identifiers.head? with
    | none => exact .inl rfl
    | some path => exact rfl
  refine (Build.ensures_lift fun env _ => hneed env).bind fun path => ?_
  have himport : Build.Ensures (fun _ => node.identifiers.head? = some path)
      (Build.lift fun _ => importer path.text) (fun _ _ => True) (Raised importer node) := by
    apply Build.ensures_lift
    intro env hpath
    cases hresult : importer path.text with
    | ok module => trivial
    | error e =>
      refine .inr ⟨path.text, ?_, hresult⟩
      rw [importedPath?_eq hk, hpath]
      rfl
  refine himport.bind fun module => ?_
  refine (lined_absorb module _).raises.bind fun _ => ?_
  exact (Build.ensures_modify fun _ _ => trivial).bind fun _ => (Build.lined_pure _).raises

/-- An error of the first pass has a line, or it is that of an import. -/
theorem firstPass_raises (importer : Importer) (lines : List (List Char)) (node : Tree Leaf) :
    Build.Ensures (fun _ => True) (firstPass importer lines node) (fun _ _ => True)
      (Raised importer node) := by
  have hconcept : isConceptNode node = true →
      Build.Ensures (fun _ => True) (firstPass importer lines node) (fun _ _ => True)
        (Raised importer node) := by
    intro hc
    rw [firstPass_of_concept hc]
    exact (lined_tryConcept lines node).raises.map
  by_cases hc : isConceptNode node = true
  · exact hconcept hc
  unfold firstPass
  split
  · refine (Build.lined_lift fun env => lined_declaredConcept node).raises.bind fun c => ?_
    exact (Build.lined_bind (lined_register c) fun _ => Build.lined_pure _).raises
  · rename_i hk
    exact absurd (by simp [isConceptNode, hk]) hc
  · rename_i hk
    exact absurd (by simp [isConceptNode, hk]) hc
  · rename_i hk
    exact (importStatement_raises hk).bind fun _ => (Build.lined_pure _).raises
  · exact (Build.lined_lift fun _ => lined_rawSql node).raises.bind
      fun _ => (Build.lined_pure _).raises
  · exact (Build.lined_pure _).raises
  · exact (Build.lined_pure _).raises
  · exact (Build.lined_pure _).raises
  · exact (Build.lined_pure _).raises
  · exact Build.ensures_throw (.inl rfl)

theorem firstPasses_raises {nodes : List (Tree Leaf)} {b b' : Builder} {e : CompileError}
    (h : Builder.firstPasses importer nodes b = (.error e, b')) :
    e.HasLine ∨ ∃ q ∈ nodes.filterMap importedPath?, importer q = .error e := by
  induction nodes generalizing b with
  | nil => cases (Prod.mk.inj h).1
  | cons node nodes ih =>
    have hnode := firstPass_raises importer b.lines node b.env trivial
    rw [Builder.firstPasses] at h
    split at h
    · rcases ih h with hline | ⟨q, hq, himport⟩
      · exact .inl hline
      · obtain ⟨other, hother, hpath⟩ := List.mem_filterMap.mp hq
        exact .inr ⟨q, List.mem_filterMap.mpr ⟨other, List.mem_cons_of_mem _ hother, hpath⟩, himport⟩
    · rename_i e' env hrun
      cases (Prod.mk.inj h).1
      rw [hrun] at hnode
      rcases hnode with hline | ⟨q, hpath, himport⟩
      · exact .inl hline
      · exact .inr ⟨q, List.mem_filterMap.mpr ⟨node, List.mem_cons_self, hpath⟩, himport⟩

theorem importStatement_imports {env env' : Environment} {s : Statement}
    (hk : node.kind = .importStatement) (h : Build.Gives (importStatement importer node) env s env') :
    ∀ q, importedPath? node = some q → ∃ module, importer q = .ok module := by
  intro q hq
  obtain ⟨path, _, hlift, hrest⟩ := Build.gives_bind.mp h
  obtain ⟨hneed, rfl⟩ := Build.gives_lift.mp hlift
  obtain ⟨module, _, hlift, -⟩ := Build.gives_bind.mp hrest
  obtain ⟨himport, -⟩ := Build.gives_lift.mp hlift
  rw [importedPath?_eq hk] at hq
  cases hpath : node.identifiers.head? with
  | none =>
    rw [hpath] at hneed
    cases hneed
  | some leaf =>
    rw [hpath] at hneed hq
    cases hneed
    rw [← Option.some.inj hq]
    exact ⟨module, himport⟩

theorem firstPasses_imports {nodes : List (Tree Leaf)} {b b' : Builder} {u : Unit}
    (h : Builder.firstPasses importer nodes b = (.ok u, b')) :
    ∀ q ∈ nodes.filterMap importedPath?, ∃ module, importer q = .ok module := by
  induction nodes generalizing b with
  | nil => simp
  | cons node nodes ih =>
    rw [Builder.firstPasses] at h
    split at h
    · rename_i slot env hrun
      intro q hq
      obtain ⟨other, hother, hpath⟩ := List.mem_filterMap.mp hq
      rcases List.mem_cons.mp hother with rfl | hother
      · by_cases hk : other.kind = .importStatement
        · have hgives : Build.Gives (firstPass importer b.lines other) b.env slot env := hrun
          unfold firstPass at hgives
          rw [hk] at hgives
          obtain ⟨s, between, himport, -⟩ := Build.gives_bind.mp hgives
          exact importStatement_imports hk himport q hpath
        · rw [importedPath?, if_neg hk] at hpath
          cases hpath
      · exact ih h q (List.mem_filterMap.mpr ⟨other, hother, hpath⟩)
    · cases (Prod.mk.inj h).1

end Importers

section Documents
variable {importer : Importer} {env : Environment} {text : String} {tree : Tree Leaf}

/-- A text compiles to what its compilation ends with. -/
theorem compileText_eq_run : compileText importer text tree =
    match (Compilation.run importer .initial text tree).error with
    | none => .ok (Compilation.run importer .initial text tree).env
    | some e => .error e := by
  unfold compileText Compilation.run Pass.declare
  dsimp only
  rw [if_pos rfl]
  rcases (({ env := .initial : Builder }.setText text).prepare).transform importer tree with
    ⟨result, b⟩
  cases result with
  | error e => rfl
  | ok u =>
    dsimp only [Pass.resolve]
    rw [if_pos rfl]
    rcases b.runSecondPass with ⟨result, b'⟩
    cases result with
    | error e => rfl
    | ok statements => rfl

/-- An error of a document has a line, or it is that of one of its imports. -/
theorem run_raises {e : CompileError}
    (h : (Compilation.run importer env text tree).error = some e) :
    e.HasLine ∨ ∃ q ∈ importsOf tree, importer q = .error e := by
  unfold Compilation.run Pass.declare at h
  dsimp only at h
  rw [if_pos rfl] at h
  rcases hfirst : (starting env text).transform importer tree with ⟨result, b⟩
  have hpasses : Builder.firstPasses importer tree.nodes (starting env text) = (result, b) := hfirst
  rw [show (({ env } : Builder).setText text).prepare.transform importer tree = (result, b)
    from hfirst] at h
  cases result with
  | error e' =>
    cases h
    exact firstPasses_raises hpasses
  | ok u =>
    have hempty : Filled (fun _ _ _ => True) env [] [] := .nil
    obtain ⟨-, -, hlines, hprepared⟩ :=
      kept_trivial.firstPasses_filled .refl rfl hempty hpasses
    have hready : b.prepared = true := hprepared
    have hsecond := lined_secondPass b.lines b.slots b.env trivial
    dsimp only [Pass.resolve] at h
    rw [if_pos rfl, Builder.runSecondPass, if_pos hready] at h
    rcases hrun : (secondPass b.lines b.slots).run.run b.env with ⟨result, env'⟩
    rw [hrun] at h hsecond
    cases result with
    | error e' =>
      cases h
      exact .inl hsecond
    | ok statements => cases h

/-- In a document that compiles, all imports do. -/
theorem imports_of_run (h : (Compilation.run importer env text tree).error = none) :
    ∀ q ∈ importsOf tree, ∃ module, importer q = .ok module := by
  obtain ⟨u, b, statements, b', hfirst, -, -⟩ := Compilation.passes_of_run h
  have hpasses : Builder.firstPasses importer tree.nodes (starting env text) = (.ok u, b) := hfirst
  exact firstPasses_imports hpasses

theorem compileText_raises {e : CompileError} (h : compileText importer text tree = .error e) :
    e.HasLine ∨ ∃ q ∈ importsOf tree, importer q = .error e := by
  rw [compileText_eq_run] at h
  split at h
  · cases h
  · rename_i found hfound
    rw [← Except.error.inj h]
    exact run_raises hfound

theorem imports_of_compileText (h : compileText importer text tree = .ok env) :
    ∀ q ∈ importsOf tree, ∃ module, importer q = .ok module := by
  rw [compileText_eq_run] at h
  split at h
  · rename_i hnone
    exact imports_of_run hnone
  · cases h

end Documents

/-- Compiling the module of `outer`, a path behind those being compiled, comes to compile that
of `inner`. -/
def Loader.Calls (load : Loader) (inner outer : List String × String) : Prop :=
  ∃ text tree, openModule load outer.1 outer.2 = .ok (text, tree) ∧
    inner.1 = outer.1 ++ [outer.2] ∧ inner.2 ∈ importsOf tree

section Modules
variable {load : Loader} {paths stack : List String} {path : String} {text : String}
  {tree : Tree Leaf}

theorem openModule_ok : openModule load stack path = .ok (text, tree) ↔
    path ∉ stack ∧ load path = .ok text ∧ parse text = .ok tree := by
  unfold openModule
  by_cases hstack : path ∈ stack
  · rw [if_pos (List.contains_iff_mem.mpr hstack)]
    exact ⟨nofun, fun h => absurd hstack h.1⟩
  · rw [if_neg fun h => hstack (List.contains_iff_mem.mp h)]
    cases hload : load path with
    | error e => exact ⟨nofun, fun h => nomatch h.2.1⟩
    | ok found =>
      cases hparse : parse found with
      | error errors =>
        dsimp only
        rw [hparse]
        refine ⟨nofun, fun h => ?_⟩
        obtain ⟨-, hfound, hok⟩ := h
        rw [← Except.ok.inj hfound, hparse] at hok
        cases hok
      | ok other =>
        dsimp only
        rw [hparse]
        constructor
        · intro h
          obtain ⟨rfl, rfl⟩ := Prod.mk.inj (Except.ok.inj h)
          exact ⟨hstack, rfl, hparse⟩
        · rintro ⟨-, hfound, hok⟩
          cases hfound
          rw [hparse] at hok
          rw [Except.ok.inj hok]

/-- A path is called circular if it is on the stack, or by the loader itself. -/
theorem openModule_circular {p : String} (h : openModule load stack path = .error (.circularImport p)) :
    p = path ∧ path ∈ stack ∨ load path = .error (.circularImport p) := by
  unfold openModule at h
  split at h
  · rename_i hstack
    cases h
    exact .inl ⟨rfl, List.contains_iff_mem.mp hstack⟩
  · split at h
    · rename_i e hload
      rw [hload]
      exact .inr (congrArg Except.error (Except.error.inj h))
    · split at h
      · cases h
      · cases h

/-- How many of the paths are not being compiled yet. -/
def room (paths stack : List String) : Nat :=
  (paths.toFinset \ stack.toFinset).card

theorem room_append_lt (hpath : path ∈ paths) (hstack : path ∉ stack) :
    room paths (stack ++ [path]) < room paths stack := by
  apply Finset.card_lt_card
  rw [Finset.ssubset_iff_of_subset]
  · exact ⟨path, by simp [hpath, hstack], by simp⟩
  · intro q hq
    simp only [Finset.mem_sdiff, List.mem_toFinset, List.mem_append, not_or] at hq ⊢
    exact ⟨hq.1, hq.2.1⟩

theorem room_le : room paths stack ≤ paths.length :=
  (Finset.card_le_card Finset.sdiff_subset).trans (List.toFinset_card_le paths)

section Serving
variable (hserves : ∀ p text, load p = .ok text → p ∈ paths)
include hserves

/-- Nested modules take up room. -/
theorem room_lt_of_open (hopen : openModule load stack path = .ok (text, tree)) :
    room paths (stack ++ [path]) < room paths stack := by
  obtain ⟨hstack, hload, -⟩ := openModule_ok.mp hopen
  exact room_append_lt (hserves path text hload) hstack

theorem calls_wellFounded : WellFounded load.Calls := by
  apply Subrelation.wf (r := InvImage (· < ·) fun call => room paths call.1)
  · rintro ⟨inner, q⟩ ⟨outer, p⟩ ⟨text, tree, hopen, hstack, -⟩
    change room paths inner < room paths outer
    rw [show inner = outer ++ [p] from hstack]
    exact room_lt_of_open hserves hopen
  · exact InvImage.wf _ Nat.lt_wfRel.wf

/-- With enough depth for the room that is left, the depth does not matter. -/
theorem compileModule_depth {depth depth' : Nat} (h : room paths stack ≤ depth)
    (h' : room paths stack ≤ depth') :
    compileModule load depth stack path = compileModule load depth' stack path := by
  induction depth generalizing depth' stack path with
  | zero =>
    cases hopen : openModule load stack path with
    | error e =>
      cases depth' with
      | zero => rfl
      | succ depth' => rw [compileModule, compileModule, hopen]
    | ok opened =>
      have hlt := room_lt_of_open hserves hopen
      omega
  | succ depth ih =>
    cases hopen : openModule load stack path with
    | error e =>
      cases depth' with
      | zero => rw [compileModule, compileModule, hopen]
      | succ depth' => rw [compileModule, compileModule, hopen]
    | ok opened =>
      have hlt := room_lt_of_open hserves hopen
      cases depth' with
      | zero => omega
      | succ depth' =>
        rw [compileModule, compileModule, hopen]
        exact compileText_congr fun q _ => ih (by omega) (by omega)

/-- Compiling a module compiles the modules it imports with the same depth: the bound is
not part of what happens. -/
theorem compileModule_eq {depth : Nat} (h : room paths stack ≤ depth) :
    compileModule load depth stack path = (openModule load stack path).bind fun opened =>
      compileText (compileModule load depth (stack ++ [path])) opened.1 opened.2 := by
  cases hopen : openModule load stack path with
  | error e =>
    cases depth with
    | zero => rw [compileModule, hopen]; rfl
    | succ depth => rw [compileModule, hopen]; rfl
  | ok opened =>
    have hlt := room_lt_of_open hserves hopen
    cases depth with
    | zero => omega
    | succ depth =>
      rw [compileModule, hopen]
      exact compileText_congr fun q _ => compileModule_depth hserves (by omega) (by omega)

/-- A path called circular lies on a circle, if every path on the stack leads to the one at
hand; or the loader calls it so. -/
theorem compileModule_circular {depth : Nat} {p : String} (h : room paths stack ≤ depth)
    (hstack : ∀ q ∈ stack, Relation.TransGen load.Imports q path)
    (hcircular : compileModule load depth stack path = .error (.circularImport p)) :
    Relation.ReflTransGen load.Imports path p ∧ Relation.TransGen load.Imports p p ∨
    ∃ q, Relation.ReflTransGen load.Imports path q ∧ load q = .error (.circularImport p) := by
  induction hroom : room paths stack using Nat.strongRecOn generalizing stack path with
  | ind n ih =>
    rw [compileModule_eq hserves h] at hcircular
    cases hopen : openModule load stack path with
    | error e =>
      rw [hopen] at hcircular
      cases hcircular
      rcases openModule_circular hopen with ⟨rfl, hmem⟩ | hload
      · exact .inl ⟨.refl, hstack p hmem⟩
      · exact .inr ⟨path, .refl, hload⟩
    | ok opened =>
      rw [hopen] at hcircular
      obtain ⟨text, tree⟩ := opened
      have hlt := room_lt_of_open hserves hopen
      obtain ⟨-, hload, hparse⟩ := openModule_ok.mp hopen
      -- an error without a line is that of an import
      rcases compileText_raises hcircular with hline | ⟨q, hq, hmodule⟩
      · cases hline
      · have himports : load.Imports path q := ⟨text, tree, hload, hparse, hq⟩
        have hstack' : ∀ s ∈ stack ++ [path], Relation.TransGen load.Imports s q := by
          intro s hs
          rcases List.mem_append.mp hs with hs | hs
          · exact (hstack s hs).tail himports
          · rw [List.mem_singleton.mp hs]
            exact .single himports
        rcases ih _ (hroom ▸ hlt) (by omega) hstack' hmodule rfl with ⟨hreach, hcircle⟩ | ⟨r, hreach, hr⟩
        · exact .inl ⟨.head himports hreach, hcircle⟩
        · exact .inr ⟨r, .head himports hreach, hr⟩

end Serving

/-- A module that compiles leads to no circle, and to modules that load and parse. -/
theorem acyclic_of_compileModule {depth : Nat} {env : Environment}
    (h : compileModule load depth stack path = .ok env) :
    Acc (fun q p => load.Imports p q) path ∧
    ∀ q, Relation.ReflTransGen load.Imports path q →
      ∃ text tree, load q = .ok text ∧ parse text = .ok tree := by
  induction depth generalizing stack path env with
  | zero =>
    rw [compileModule] at h
    split at h
    · cases h
    · cases h
  | succ depth ih =>
    rw [compileModule] at h
    split at h
    · cases h
    · rename_i text tree hopen
      obtain ⟨-, hload, hparse⟩ := openModule_ok.mp hopen
      have hnext : ∀ q, load.Imports path q → Acc (fun q p => load.Imports p q) q ∧
          ∀ r, Relation.ReflTransGen load.Imports q r →
            ∃ text tree, load r = .ok text ∧ parse text = .ok tree := by
        rintro q ⟨text', tree', hload', hparse', hq⟩
        rw [hload] at hload'
        cases hload'
        rw [hparse] at hparse'
        cases hparse'
        obtain ⟨module, hmodule⟩ := imports_of_compileText h q hq
        exact ih hmodule
      constructor
      · exact Acc.intro path fun q hq => (hnext q hq).1
      · intro q hreach
        rcases Relation.ReflTransGen.cases_head hreach with rfl | ⟨r, hr, hrest⟩
        · exact ⟨text, tree, hload, hparse⟩
        · exact (hnext r hr).2 q hrest

theorem not_circle_of_acc {p : String} (h : Acc (fun q p => load.Imports p q) p) :
    ¬ Relation.TransGen load.Imports p p := by
  induction h with
  | intro p _ ih =>
    intro hcircle
    obtain ⟨q, hq, hrest⟩ := Relation.TransGen.head'_iff.mp hcircle
    exact ih q hq (Relation.TransGen.tail' hrest hq)

theorem acc_of_reaches {p q : String} (h : Acc (fun q p => load.Imports p q) p)
    (hreach : Relation.ReflTransGen load.Imports p q) : Acc (fun q p => load.Imports p q) q := by
  induction hreach with
  | refl => exact h
  | tail _ hstep ih => exact ih.inv hstep

end Modules
end Compile

open Compile

/-- A library has as many paths as modules. -/
theorem Compile.Library.serves {library : Library} {path text : String}
    (h : library.load path = .ok text) : path ∈ library.modules.map Prod.fst := by
  unfold Library.load at h
  split at h
  · rename_i found hfound
    exact List.mem_map_of_mem (Catalog.mem_of_find hfound)
  · cases h

/-- With a loader that serves finitely many paths, compiling a document comes to an end: the
nested calls are well founded, the bound on their depth changes nothing, and neither does
that on the rounds. If it succeeds, every path that the document reaches loads and parses
and lies on no circle. If a path is refused as circular, the document reaches it and it lies
on a circle, or the loader itself has refused it so; hence without circles no path is. -/
theorem Compilation.imports_exact {load : Loader} {paths : List String}
    (hserves : ∀ path text, load path = .ok text → path ∈ paths) {depth : Nat}
    (hdepth : paths.length ≤ depth) (env : Environment) (text : String) (tree : Tree Leaf) :
    (WellFounded load.Calls ∧
      (∀ stack path, compileModule load depth stack path =
        (openModule load stack path).bind fun opened =>
          compileText (compileModule load depth (stack ++ [path])) opened.1 opened.2) ∧
      ∀ lines slots rounds, slots.length < rounds →
        resolvePending lines rounds slots = resolvePending lines (slots.length + 1) slots) ∧
    ((Compilation.run (compileModule load depth []) env text tree).error = none →
      ∀ q, load.Reaches tree q →
        (∃ text tree, load q = .ok text ∧ parse text = .ok tree) ∧
        ¬ Relation.TransGen load.Imports q q) ∧
    (∀ p, (Compilation.run (compileModule load depth []) env text tree).error =
        some (.circularImport p) →
      load.Reaches tree p ∧ Relation.TransGen load.Imports p p ∨
      ∃ q, load.Reaches tree q ∧ load q = .error (.circularImport p)) ∧
    ((∀ q, load.Reaches tree q → ¬ Relation.TransGen load.Imports q q) →
      (∀ q p, load q ≠ .error (.circularImport p)) →
      ∀ p, (Compilation.run (compileModule load depth []) env text tree).error ≠
        some (.circularImport p)) := by
  have hroom : ∀ stack, room paths stack ≤ depth := fun _ => room_le.trans hdepth
  have hcircular : ∀ p, (Compilation.run (compileModule load depth []) env text tree).error =
        some (.circularImport p) →
      load.Reaches tree p ∧ Relation.TransGen load.Imports p p ∨
      ∃ q, load.Reaches tree q ∧ load q = .error (.circularImport p) := by
    intro p herror
    rcases run_raises herror with hline | ⟨q, hq, hmodule⟩
    · cases hline
    · rcases compileModule_circular hserves (hroom []) (by simp) hmodule with
        ⟨hreach, hcircle⟩ | ⟨r, hreach, hr⟩
      · exact .inl ⟨⟨q, hq, hreach⟩, hcircle⟩
      · exact .inr ⟨r, ⟨q, hq, hreach⟩, hr⟩
  refine ⟨⟨calls_wellFounded hserves, fun stack path => compileModule_eq hserves (hroom stack), ?_⟩,
    ?_, hcircular, ?_⟩
  · intro lines slots rounds hrounds
    have hwaiting : waiting slots ≤ slots.length := List.countP_le_length
    exact resolvePending_fuel (by omega) (by omega)
  · rintro hnone q ⟨p, hp, hreach⟩
    obtain ⟨module, hmodule⟩ := imports_of_run hnone p hp
    obtain ⟨hacc, hopens⟩ := acyclic_of_compileModule hmodule
    exact ⟨hopens q hreach, not_circle_of_acc (acc_of_reaches hacc hreach)⟩
  · intro hacyclic hload p herror
    rcases hcircular p herror with ⟨hreach, hcircle⟩ | ⟨q, -, hq⟩
    · exact hacyclic p hreach hcircle
    · exact hload q p hq

/-- Modules that meet again in a third are fine, and two that import each other are not. -/
theorem Compilation.imports_exact_diamond_circle :
    let library : Library :=
      ⟨[("a", "import c;"), ("b", "import c;"), ("c", "key x int;"), ("d", "import e;"),
        ("e", "import d;")], fun _ => "nowhere"⟩
    (∃ tree, parse "import a;\nimport b;" = .ok tree ∧
      (Compilation.run library.importer .initial "import a;\nimport b;" tree).error = none ∧
      ∀ q, library.load.Reaches tree q → ¬ Relation.TransGen library.load.Imports q q) ∧
    ∃ tree, parse "import d;" = .ok tree ∧
      (Compilation.run library.importer .initial "import d;" tree).error =
        some (.circularImport "d") ∧
      Relation.TransGen library.load.Imports "d" "d" := by
  intro library
  have hexact := @Compilation.imports_exact library.load (library.modules.map Prod.fst)
    (fun _ _ h => Library.serves h) library.modules.length (by rw [List.length_map]) .initial
  constructor
  · obtain ⟨tree, hparse, hrun⟩ : ∃ tree, parse "import a;\nimport b;" = .ok tree ∧
        some (Compilation.run library.importer .initial "import a;\nimport b;" tree).error =
          some none := by
      apply exists_tree
      decide +kernel
    have hnone := Option.some.inj hrun
    obtain ⟨-, hsuccess, -⟩ := hexact "import a;\nimport b;" tree
    exact ⟨tree, hparse, hnone, fun q hq => (hsuccess hnone q hq).2⟩
  · obtain ⟨tree, hparse, herror⟩ : ∃ tree, parse "import d;" = .ok tree ∧
        (Compilation.run library.importer .initial "import d;" tree).error =
          some (.circularImport "d") := by
      apply exists_tree
      decide +kernel
    obtain ⟨-, -, hcircular, -⟩ := hexact "import d;" tree
    refine ⟨tree, hparse, herror, ?_⟩
    rcases hcircular "d" herror with ⟨-, hcircle⟩ | ⟨q, -, hq⟩
    · exact hcircle
    · unfold Library.load at hq
      split at hq
      · cases hq
      · cases hq

end ConceptQuery
