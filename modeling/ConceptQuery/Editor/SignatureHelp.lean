import ConceptQuery.Editor.FunctionDoc
import ConceptQuery.Text.Cursor
import ConceptQuery.Text.Position

/-! # Signature help

The function whose call is open at the cursor. Only the line of the cursor is
looked at, and only its innermost open parenthesis.
-/
namespace ConceptQuery

structure SignatureHelp where
  function : FunctionDoc
  /-- The parameter at the cursor; surplus arguments count as the last one. -/
  active : Option Nat
deriving DecidableEq, Inhabited

namespace SignatureHelp

def ofCall? (call : Text.OpenCall) : Option SignatureHelp :=
  (FunctionDoc.find? call.name).map fun f =>
    { function := f
      active := if f.parameters.isEmpty then none
        else some (min call.commas (f.parameters.length - 1)) }

def at? (text : String) (p : Position) : Option SignatureHelp :=
  ((Text.before? text.toList p.line p.column).bind Text.openCall?).bind ofCall?

end SignatureHelp
end ConceptQuery
