import ConceptQuery.Proofs.Anchors
import ConceptQuery.Proofs.Formation

/-! # Under which name a concept is filed

A declaration and a derivation file their concept under the name as it is written, a
property goes by the last segment of its name. The editor records the name as it is written
for all three. In a document that compiles each of these names leads to metadata:
directly, or by the last segment, which is looked for in `local` if nothing else has the
name.
-/
namespace ConceptQuery

namespace Dotted

end Dotted

namespace Lexer
open Dotted

end Lexer

namespace Environment
variable {env : Environment} {name : String}

end Environment

namespace Compile
open Environment Build
variable {importer : Importer} {lines : List (List Char)} {node : Tree Leaf}
  {env env' : Environment} {line : Nat}

end Compile

open Compile Environment

end ConceptQuery
