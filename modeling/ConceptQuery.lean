import ConceptQuery.Catalog
import ConceptQuery.Compile.Builder
import ConceptQuery.Compile.Comment
import ConceptQuery.Compile.Declaration
import ConceptQuery.Compile.Expression
import ConceptQuery.Compile.Pass
import ConceptQuery.Compile.Query
import ConceptQuery.Compile.Shape
import ConceptQuery.Dialect.Basic
import ConceptQuery.Dialect.DuckDb
import ConceptQuery.Editor.Completion
import ConceptQuery.Editor.Config
import ConceptQuery.Editor.Diagnostic
import ConceptQuery.Editor.FunctionDoc
import ConceptQuery.Editor.Highlight
import ConceptQuery.Editor.Hover
import ConceptQuery.Editor.Navigation
import ConceptQuery.Editor.Outline
import ConceptQuery.Editor.Session
import ConceptQuery.Editor.Setting
import ConceptQuery.Editor.SignatureHelp
import ConceptQuery.Editor.Snapshot
import ConceptQuery.Files.FileTree
import ConceptQuery.Files.Path
import ConceptQuery.Grammar.Document
import ConceptQuery.Grammar.Expression
import ConceptQuery.Grammar.ParseError
import ConceptQuery.Grammar.Rule
import ConceptQuery.Grammar.Statement
import ConceptQuery.Lens
import ConceptQuery.Model.CompileError
import ConceptQuery.Model.Concept
import ConceptQuery.Model.DataType
import ConceptQuery.Model.Datasource
import ConceptQuery.Model.Environment
import ConceptQuery.Model.Expr
import ConceptQuery.Model.ExprText
import ConceptQuery.Model.Statement
import ConceptQuery.Plan.Basic
import ConceptQuery.Plan.Render
import ConceptQuery.Plan.Select
import ConceptQuery.Plan.Source
import ConceptQuery.Proofs.Agreement
import ConceptQuery.Proofs.Anticipated
import ConceptQuery.Proofs.Assembly
import ConceptQuery.Proofs.Catalogs
import ConceptQuery.Proofs.Faults
import ConceptQuery.Proofs.Growth
import ConceptQuery.Proofs.Known
import ConceptQuery.Proofs.Lineage
import ConceptQuery.Proofs.Lossless
import ConceptQuery.Proofs.Mentions
import ConceptQuery.Proofs.Names
import ConceptQuery.Proofs.Passes
import ConceptQuery.Proofs.Phrase
import ConceptQuery.Proofs.Placed
import ConceptQuery.Proofs.Queries
import ConceptQuery.Proofs.Reading
import ConceptQuery.Proofs.References
import ConceptQuery.Proofs.Resolving
import ConceptQuery.Proofs.Rounds
import ConceptQuery.Proofs.Sentence
import ConceptQuery.Proofs.Shape
import ConceptQuery.Proofs.Spelling
import ConceptQuery.Proofs.Strays
import ConceptQuery.Proofs.Triple
import ConceptQuery.Symbol.Location
import ConceptQuery.Symbol.Metadata
import ConceptQuery.Symbol.Resolve
import ConceptQuery.Symbol.Structure
import ConceptQuery.Text.Ascii
import ConceptQuery.Text.Binary
import ConceptQuery.Text.Blank
import ConceptQuery.Text.Cursor
import ConceptQuery.Text.Decimal
import ConceptQuery.Text.Dotted
import ConceptQuery.Text.Escaped
import ConceptQuery.Text.LineIndex
import ConceptQuery.Text.NameCharacter
import ConceptQuery.Text.Numeral
import ConceptQuery.Text.Position
import ConceptQuery.Text.Shortest
import ConceptQuery.Token.Kind
import ConceptQuery.Token.Lexer
import ConceptQuery.Tree.Basic
import ConceptQuery.Tree.Label
import ConceptQuery.Tree.Leaf
import ConceptQuery.Proofs.Protocol
import ConceptQuery.Proofs.Supersession
import ConceptQuery.Proofs.ErrorLines
import ConceptQuery.Proofs.ImportGraph
import ConceptQuery.Proofs.Renaming
import ConceptQuery.Proofs.Portable
import ConceptQuery.Proofs.Confluence
import ConceptQuery.Proofs.Derivation
import ConceptQuery.Proofs.Layout
import ConceptQuery.Proofs.Completeness
import ConceptQuery.Proofs.Acceptance
import ConceptQuery.Proofs.Isolation
import ConceptQuery.Proofs.Additions
import ConceptQuery.Proofs.History
import ConceptQuery.Proofs.Independence
import ConceptQuery.Proofs.Cover
import ConceptQuery.Proofs.Quoting
import ConceptQuery.Proofs.Joins
import ConceptQuery.Proofs.Aggregates
import ConceptQuery.Proofs.Grouping
import ConceptQuery.Proofs.Refusals
import ConceptQuery.Proofs.Expansion
import ConceptQuery.Proofs.Origins
import ConceptQuery.Proofs.Properties
import ConceptQuery.Proofs.SqlReading
import ConceptQuery.Proofs.SqlRoundTrip
import ConceptQuery.Proofs.SqlOperations
import ConceptQuery.Proofs.SqlText
import ConceptQuery.Proofs.Formed
import ConceptQuery.Proofs.Formation
import ConceptQuery.Proofs.Regrouping
import ConceptQuery.Proofs.Cursors
import ConceptQuery.Proofs.Anchors
import ConceptQuery.Proofs.Aliases
import ConceptQuery.Proofs.Merging
import ConceptQuery.Proofs.Diagnostics
import ConceptQuery.Proofs.Occurrences
import ConceptQuery.Proofs.Inside
import ConceptQuery.Proofs.Filing
import ConceptQuery.Proofs.Outlines
import ConceptQuery.Proofs.Wording
import ConceptQuery.Proofs.ReadingBack
import ConceptQuery.Proofs.Enclosed
import ConceptQuery.Proofs.Highlighting
import ConceptQuery.Proofs.Descriptions
import ConceptQuery.Proofs.OpenCalls
