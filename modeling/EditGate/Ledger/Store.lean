import EditGate.Ledger.Document
import EditGate.Project
import EditGate.World

/-!
# The ledger on disk

Loading always yields a document. A stored text that is no object is moved aside; an object with
sections missing is copied aside and written anew with what can be kept. Saving goes through a
second file that is read back and takes the place of the ledger only if it holds all sections.
-/

namespace EditGate

/-- Where a ledger is kept, the project that it belongs to, and where its notices go. -/
structure Ledger where
  project : Project
  path : Path
  sink : Sink
deriving DecidableEq, Repr

namespace Ledger

def pathText (l : Ledger) : String := String.ofList l.path

/-- A notice about the ledger itself. -/
def notice (l : Ledger) (severity : Severity) (code message : String) : Notice :=
  ⟨severity, code, some l.pathText, message⟩

/-! ## Saving -/

/-- Where a document is written before it takes the place of the ledger. -/
def draftPath (l : Ledger) : Path :=
  l.path.withFileName ('.' :: (l.path.fileName?.getD []) ++ ".tmp".toList)

/-- Writes a text to a new file and makes sure that it stays. -/
def writeDraft (path : Path) (text : String) : Trial Unit := do
  Trial.io (Run.createFile path)
  Trial.io (Run.appendText path text)
  Trial.io Run.sync

/-- Puts a document in the place of the ledger. What was there stays unless every step succeeds
and the written text has all sections. -/
def save (l : Ledger) (d : Document) : Trial Unit := do
  Trial.io (Run.makeParents l.path)
  writeDraft l.draftPath d.body
  let written ← Trial.io (Run.readText l.draftPath)
  match classify written.toList with
  | .ok _ => Trial.io (Run.rename l.draftPath l.path)
  | .error fault => do
    let _ ← Run.removeFile l.draftPath
    Trial.refuse (.ledgerUnverified fault)

/-! ## Loading -/

/-- Fresh sections for a document of the project, made now. -/
def freshSections (l : Ledger) : Run Fresh := do
  let time ← Run.timeStamp
  return ⟨freshContext l.project.root time, freshSession (← Run.newEvent) time⟩

def freshDocument (l : Ledger) : Run Document := return .fresh (← l.freshSections)

/-- The document that an object holds. Each entry that cannot be read is reported. -/
def fromObject (l : Ledger) (obj : Keyed Json) : Run Document := do
  let (d, notices) := Document.ofObject obj (← l.freshSections)
  l.sink.recordAll notices
  return d

/-- A name for a backup made now. -/
def backupPath (l : Ledger) (kind : String) : Run Path := do
  let name := l.path.fileName?.getD "project-memory.json".toList
  let time ← Run.timeStamp
  let event ← Run.newEvent
  return l.path.withFileName
    (name ++ '.' :: kind.toList ++ '.' :: time.toList ++ '-' :: event.toList)

/-- Moves a stored text aside that cannot be read, and starts afresh. -/
def recoverCorrupt (l : Ledger) (reason : String) : Run Document := do
  let backup ← l.backupPath "corrupt"
  match ← Run.rename l.path backup with
  | .ok () =>
    l.sink.record (l.notice .error "ledger.corrupt"
      ("ledger unreadable (" ++ reason ++ "); backed up to " ++ String.ofList backup ++
        " and reinitialized"))
  | .error cause =>
    l.sink.record (l.notice .error "ledger.backup_failed"
      ("ledger unreadable (" ++ reason ++ ") and backup failed: " ++ cause.message))
  l.freshDocument

/-- Copies aside a stored text with sections missing, and writes the ledger anew with what can be
kept. -/
def recoverIncomplete (l : Ledger) (content : String) (missing : List String) : Run Document := do
  let backup ← l.backupPath "incomplete"
  if let .error cause ← Run.writeText backup content then
    l.sink.record (l.notice .error "ledger.backup_failed"
      ("could not back up incomplete ledger: " ++ cause.message))
  l.sink.record (l.notice .warn "ledger.incomplete"
    ("ledger missing or malformed " ++ ", ".intercalate missing ++ "; backed up to " ++
      String.ofList backup ++ " and repaired"))
  let d ← l.fromObject (objectOf content.toList)
  if let .error failure ← (l.save d).run then
    l.sink.record (l.notice .error "ledger.write_failed"
      ("could not rewrite repaired ledger: " ++ failure.message))
  return d

/-- The document of the project, whatever state the ledger is in. -/
def load (l : Ledger) : Run Document := do
  match ← Run.readText l.path with
  | .error .notFound => l.freshDocument
  | .error cause => l.recoverCorrupt ("unreadable: " ++ cause.message)
  | .ok content =>
    match classify content.toList with
    | .ok obj => l.fromObject obj
    | .error (.corrupt reason) => l.recoverCorrupt reason
    | .error (.incomplete missing) => l.recoverIncomplete content missing

end Ledger

end EditGate
