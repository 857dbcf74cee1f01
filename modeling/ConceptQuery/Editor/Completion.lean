import ConceptQuery.Editor.FunctionDoc
import ConceptQuery.Editor.Hover
import ConceptQuery.Editor.Outline

/-! # Completions

The same list for every place of a document: its concepts, then keywords, functions
and datasources. Each group has its own priority, which an editor sorts by.
-/
namespace ConceptQuery

inductive CompletionKind where
  | function | field | derived | property | value | keyword | constant | table
deriving DecidableEq, Inhabited

namespace CompletionKind

def ofRole : Role → CompletionKind
  | .key => field
  | .property => property
  | .metric => value
  | .constant => constant
  | .auto => derived

/-- The number that editors use for it. -/
def code : CompletionKind → Nat
  | function => 3
  | field => 5
  | derived => 6
  | property => 10
  | value => 12
  | keyword => 14
  | constant => 21
  | table => 22

end CompletionKind

structure Completion where
  label : String
  kind : CompletionKind
  detail : Option String := none
  documentation : Option String := none
  insertText : Option String := none
  /-- Whether the text to insert has places to fill in. -/
  isSnippet : Bool := false
  priority : Nat
deriving DecidableEq, Inhabited

namespace Completion

def keywords : List String :=
  ["select", "key", "property", "metric", "const", "datasource", "import", "as", "where",
   "order", "by", "limit", "asc", "desc", "and", "or", "not", "in", "between", "like", "is",
   "null", "true", "false", "grain", "address", "auto", "persist", "into", "rowset", "merge",
   "show"]

/-- What an editor sorts by. -/
def sortText (c : Completion) : String :=
  toString c.priority ++ "_" ++ c.label

def ofMetadata (limit : Nat) (m : Metadata) : Completion :=
  let derivation := (Hover.given? m.lineage).map fun lineage =>
    "Derivation: " ++ Hover.code (Text.shorten lineage limit limit)
  { label := m.name, kind := .ofRole m.role, detail := some m.detail
    documentation := some ("\n\n".intercalate
      (Hover.heading m :: ((Hover.given? m.description).toList ++ derivation.toList)))
    insertText := some m.name, priority := 0 }

def ofKeyword (word : String) : Completion :=
  { label := word, kind := .keyword, detail := some "keyword", insertText := some word, priority := 1 }

def ofFunction (f : FunctionDoc) : Completion :=
  { label := f.name, kind := .function, detail := some f.signature
    documentation := some f.description, insertText := some (f.name ++ "($1)")
    isSnippet := true, priority := 2 }

def ofDatasource (d : DatasourceInfo) : Completion :=
  { label := d.name, kind := .table, detail := some d.detail
    documentation := some ("**Datasource:** " ++ Hover.code d.name ++
      "\n\n**Address:** " ++ Hover.code d.address)
    insertText := some d.name, priority := 3 }

end Completion

def Snapshot.completions (s : Snapshot) (config : Config) : List Completion :=
  (s.metadata.values.filter fun m => m.space ≠ internalSpace).map
      (Completion.ofMetadata config.completionLimit) ++
    Completion.keywords.map Completion.ofKeyword ++
    FunctionDoc.all.map Completion.ofFunction ++
    s.datasources.map Completion.ofDatasource

end ConceptQuery
