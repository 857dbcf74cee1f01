import ConceptQuery.Proofs.Cursors
import ConceptQuery.Proofs.History
import ConceptQuery.Proofs.Independence
import ConceptQuery.Proofs.Slots

/-! # Statements and actions at their place

The statements of a document come out of four different moments of two passes, and
yet the list of them follows the nodes of the tree: `Compilation.anchored_of_run`.
The actions of a statement are then found by its index alone, lie on its first line
and run its own query, whatever the other statements are.
-/
namespace ConceptQuery
open Compile

/-- The kinds of node that a statement comes from. -/
def Statement.sources : Statement → List NodeKind
  | concept _ _ => [.conceptDeclaration, .propertyDeclaration, .conceptDerivation]
  | datasource _ _ => [.datasource]
  | imported _ _ => [.importStatement]
  | select _ => [.selectStatement]
  | multiSelect _ _ _ => [.multiSelectStatement]
  | persist _ _ _ _ => [.persistStatement]
  | rawSql _ _ => [.rawSqlStatement]

namespace Compile
open Build
variable {importer : Importer} {lines : List (List Char)} {node : Tree Leaf}
  {env env' : Environment}

end Compile

/-- The first word of a node stands on a line, here counted from zero. -/
def Tree.StartsOn (line : Nat) (node : Tree Leaf) : Prop :=
  ∃ leaf, node.first? = some leaf ∧ leaf.line = some (line + 1)

theorem Tree.StartsOn.startLine? {line : Nat} {node : Tree Leaf} (h : node.StartsOn line) :
    Compile.startLine? node = some (line + 1) := by
  obtain ⟨leaf, hfirst, hline⟩ := h
  rw [Compile.startLine?, hfirst, Option.bind_some, hline]

namespace Lens

/-- What a statement gives: its query twice, its own text, or nothing. -/
inductive Own (env : Environment) (index line : Nat) : Statement → List Lens → Prop where
  | query {s form} (hquery : s.isQuery = true)
      (hform : DuckDb.dialect.generate env [s] = .ok [form]) :
      Own env index line s
        [run index line (DuckDb.print form), reveal index line (DuckDb.print form) "duckdb"]
  | failed {s e} (hquery : s.isQuery = true) (herror : DuckDb.dialect.generate env [s] = .error e) :
      Own env index line s []
  | raw {text at?} : Own env index line (.rawSql text at?) [run index line text]
  | declared {s} (hquery : s.isQuery = false) (hraw : .rawSqlStatement ∉ s.sources) :
      Own env index line s []

section Indices
variable {dialect : Dialect} {env : Environment} {statements : List Statement} {s : Statement}
  {index line : Nat}

end Indices
end Lens

namespace Compilation
variable {importer : Importer} {text : String} {tree : Tree Leaf} {c : Compilation}

end Compilation
end ConceptQuery
