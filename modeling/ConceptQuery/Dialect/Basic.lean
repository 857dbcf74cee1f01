import ConceptQuery.Plan.Basic

/-! # Dialects

A dialect plans statements and prints the plans.
-/
namespace ConceptQuery

structure Dialect where
  /-- The name that editor commands pass on. -/
  name : String
  generate : Environment → List Statement → Except RenderError (List Form)
  print : Form → Except RenderError String

end ConceptQuery
