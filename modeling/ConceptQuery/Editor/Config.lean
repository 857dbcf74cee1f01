import ConceptQuery.Dialect.DuckDb
import ConceptQuery.Editor.Setting

/-! # Configuration

What an editor can configure: the namespace of names without one, the directory
that imports start from, how much of a derivation is shown, and the dialect that
queries are printed in. A configuration is in force only if its dialect is known.
-/
namespace ConceptQuery

structure Config where
  space : String := localSpace
  /-- Without it, imports start from the directory of the document. -/
  workingPath : Option String := none
  hoverLimit : Nat := 100
  completionLimit : Nat := 50
  dialect : String := "duckdb"
deriving DecidableEq, Inhabited

inductive EditorError where
  | cancelled (document : String)
  | invalidSetting (fault : SettingFault)
  | unsupportedDialect (name : String)
deriving Inhabited

def EditorError.message : EditorError → String
  | cancelled document => "validation of " ++ document ++ " was cancelled"
  | invalidSetting fault => "invalid setting: " ++ fault.message
  | unsupportedDialect name => "unsupported dialect '" ++ name ++ "'"

namespace Config

/-- The key under which an editor keeps the settings of several tools. -/
def sectionName : String := "trilogy"

/-- Dialects are named without regard to case. -/
def renderer (c : Config) : Except EditorError Dialect :=
  if Text.sameLetters c.dialect DuckDb.dialect.name then .ok DuckDb.dialect
  else .error (.unsupportedDialect c.dialect)

/-- Settings that were given, on top of the defaults. -/
def ofChoices (space workingPath : Option String) (hover completion : Option Nat)
    (dialect : Option String) : Config :=
  let defaults : Config := {}
  { space := space.getD defaults.space
    workingPath
    hoverLimit := hover.getD defaults.hoverLimit
    completionLimit := completion.getD defaults.completionLimit
    dialect := dialect.getD defaults.dialect }

/-- Fields are read in the order of their names; the first bad one is reported. -/
def ofRecord (field : String → Setting) : Except SettingFault Config := do
  let completion ← (field "completionLineageLimit").readCount
  let space ← (field "defaultNamespace").readText .text
  let dialect ← (field "dialect").readText .text
  let hover ← (field "hoverLineageLimit").readCount
  let workingPath ← (field "workingPath").readText .path
  return ofChoices space workingPath hover completion dialect

/-- A list gives the fields by position, and may leave out the last ones. -/
def ofList (items : List Setting) : Except SettingFault Config := do
  let item (i : Nat) : Setting := items.getD i .null
  let space ← (item 0).readText .text
  let workingPath ← (item 1).readText .path
  let hover ← (item 2).readCount
  let completion ← (item 3).readCount
  let dialect ← (item 4).readText .text
  if 5 < items.length then .error (.tooLong items.length)
  else return ofChoices space workingPath hover completion dialect

def ofSection : Setting → Except SettingFault Config
  | .null => .ok {}
  | .record fields => ofRecord fun name => ((Setting.record fields).field? name).getD .null
  | .list items => ofList items
  | other => .error (.wrongType other .wholeSection)

/-- Reads the settings of an editor, or the section of them that is meant. -/
def ofSetting (setting : Setting) : Except EditorError Config :=
  match ofSection ((setting.field? sectionName).getD setting) with
  | .error fault => .error (.invalidSetting fault)
  | .ok config =>
    match config.renderer with
    | .ok _ => .ok config
    | .error e => .error e

end Config
end ConceptQuery
