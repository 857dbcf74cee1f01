import ConceptQuery.Editor.Snapshot

/-! # Sessions

A session holds the latest snapshot of every document. A validation begins, builds
a snapshot and publishes it; other validations may begin in between. Beginning one
cancels the unfinished one of the same document, and a cancelled validation
publishes nothing, so a snapshot is never replaced by one of an older text.
-/
namespace ConceptQuery

/-- A validation that has begun. Generations count the validations of a session. -/
structure Validation where
  document : String
  text : String
  generation : Nat
deriving DecidableEq, Inhabited

structure Session where
  config : Config := {}
  dialect : Dialect := DuckDb.dialect
  published : Catalog Snapshot := .empty
  /-- The generation of the newest unfinished validation of a document. -/
  inflight : Catalog Nat := .empty
  cancelled : List Nat := []
  nextGeneration : Nat := 0

namespace Session

/-- A session with a configuration whose dialect is known. -/
def withConfig (s : Session) (config : Config) : Except EditorError Session :=
  match config.renderer with
  | .ok dialect => .ok { s with config, dialect }
  | .error e => .error e

def isCancelled (s : Session) (v : Validation) : Bool :=
  s.cancelled.contains v.generation

/-- Cancels the unfinished validation of a document, if there is one. -/
def cancel (s : Session) (document : String) : Session :=
  match s.inflight.get? document with
  | some generation => { s with cancelled := generation :: s.cancelled }
  | none => s

/-- Begins a validation in place of the unfinished one. -/
def start (s : Session) (document text : String) : Validation × Session :=
  let cleared := s.cancel document
  (⟨document, text, s.nextGeneration⟩,
   { cleared with
     inflight := s.inflight.insert document s.nextGeneration
     nextGeneration := s.nextGeneration + 1 })

/-- Takes a build to its next stage, unless the validation was cancelled and the
build looks there. -/
def advance (s : Session) (files : FileTree) (v : Validation) (stage : Snapshot.Stage) :
    Except EditorError Snapshot.Stage :=
  if stage.isCheckpoint && s.isCancelled v then .error (.cancelled v.document)
  else .ok (stage.next s.dialect s.config files v.document v.text)

theorem left_of_advance {s : Session} {files : FileTree} {v : Validation}
    {stage next : Snapshot.Stage} (hstage : stage.snapshot? = none)
    (h : s.advance files v stage = .ok next) : next.left < stage.left := by
  unfold advance at h
  split at h
  · cases h
  · rw [← Except.ok.inj h]
    exact Snapshot.Stage.left_next_lt hstage

/-- Takes a build to its end with nothing in between. -/
def buildFrom (s : Session) (files : FileTree) (v : Validation) (stage : Snapshot.Stage) :
    Except EditorError Snapshot :=
  match _ : stage.snapshot? with
  | some snapshot => .ok snapshot
  | none =>
    match _ : s.advance files v stage with
    | .ok next => buildFrom s files v next
    | .error e => .error e
termination_by stage.left
decreasing_by exact left_of_advance ‹_› ‹_›

def build (s : Session) (files : FileTree) (v : Validation) : Except EditorError Snapshot :=
  s.buildFrom files v .unread

/-- Exchanges the snapshot of a document, unless the validation was cancelled. -/
def publish (s : Session) (v : Validation) (snapshot : Snapshot) :
    Except EditorError (List Diagnostic) × Session :=
  if s.isCancelled v then (.error (.cancelled v.document), s)
  else (.ok snapshot.diagnostics,
    { s with published := s.published.insert v.document snapshot })

/-- A validation that a newer one has replaced leaves that one in flight. -/
def finish (s : Session) (v : Validation) : Session :=
  if s.inflight.get? v.document = some v.generation then
    { s with inflight := s.inflight.erase v.document }
  else s

/-- Brings a validation that has begun to its end. -/
def complete (s : Session) (files : FileTree) (v : Validation) :
    Except EditorError (List Diagnostic) × Session :=
  match s.build files v with
  | .error e => (.error e, s.finish v)
  | .ok snapshot =>
    let (result, after) := s.publish v snapshot
    (result, after.finish v)

/-- A validation with nothing in between. -/
def validate (s : Session) (files : FileTree) (document text : String) :
    Except EditorError (List Diagnostic) × Session :=
  let (v, started) := s.start document text
  started.complete files v

/-- Forgets a document. -/
def close (s : Session) (document : String) : Session :=
  let cleared := s.cancel document
  { cleared with published := cleared.published.erase document }

def isOpen (s : Session) (document : String) : Bool :=
  s.published.contains document

/-- The documents with a snapshot, in the order of their names. -/
def documents (s : Session) : List String :=
  s.published.keys.mergeSort fun a b => !(b < a)

def snapshot? (s : Session) (document : String) : Option Snapshot :=
  s.published.get? document

/-- A document without a snapshot reads as an empty one. -/
def snapshot (s : Session) (document : String) : Snapshot :=
  (s.snapshot? document).getD {}

end Session
end ConceptQuery
