import EditGate.Config.Basic
import EditGate.FollowUp
import EditGate.Ledger.Approvals
import EditGate.Metadata.Extract
import EditGate.Metadata.Patch
import EditGate.Rule.Book

/-!
# The gate

What is asked before and after a file is modified. A gate has rules of its own; everything else
it reads anew for every question, so that an answer depends on the disk as it is. A file that
cannot be read counts as one without metadata: it is allowed, with a notice.
-/

namespace EditGate

structure Gate where
  project : Project
  /-- Where the ledger is kept. -/
  ledgerPath : Path
  book : RuleBook
  sink : Sink

namespace Gate

open Approval (Slot Status)

/-! ## Opening -/

/-- The gate of a project with a configuration. -/
def ofConfig (p : Project) (c : Config) (sink : Sink) : Except Failure Gate :=
  match RuleBook.addAll { RuleBook.builtin with dedupe := c.dedupe } c.rules with
  | .ok book => .ok { project := p, ledgerPath := c.ledgerPath p, book, sink }
  | .error refusal => .error (.validation refusal)

/-- The configuration of a project; one without a configuration file has the default. -/
def readConfig (p : Project) : Trial Config := do
  if ← Run.isThere p.configPath then
    let text ← Trial.io (Run.readText p.configPath)
    ExceptT.mk (pure (Config.read text))
  else return {}

/-- Where notices go by configuration. -/
def configuredSink (p : Project) (c : Config) : Sink :=
  match c.journalPath p with
  | some path => .journal path
  | none => .discard

/-- The gate of a project as it is configured, with notices going elsewhere if asked. -/
def ofProject (p : Project) (sink : Option Sink) : Trial Gate := do
  let c ← readConfig p
  ExceptT.mk (pure (ofConfig p c (sink.getD (configuredSink p c))))

/-! ## Rules -/

def addRule (g : Gate) (r : Rule) : Except Failure Gate :=
  match g.book.add r with
  | .ok book => .ok { g with book }
  | .error refusal => .error (.validation refusal)

def removeRule (g : Gate) (id : String) : Gate := { g with book := g.book.remove id }

def setRuleEnabled (g : Gate) (id : String) (enabled : Bool) : Gate :=
  { g with book := g.book.setEnabled id enabled }

def rule? (g : Gate) (id : String) : Option Rule := g.book.rule? id

/-- Every rule, in the order in which evaluation visits them. -/
def rules (g : Gate) : List Rule := g.book.rules

/-! ## Before a modification -/

variable (g : Gate)

def ledger : Ledger := ⟨g.project, g.ledgerPath, g.sink⟩

def key (path : String) : String := g.project.key path

/-- Where the file of a path is. -/
def locate (path : String) : Path := g.project.locate path.toList

/-- The text of a file; one that cannot be read is reported. -/
def readSource (path : String) : Run (Option String) := do
  match ← Run.readText (g.locate path) with
  | .ok text => return some text
  | .error cause => do
    g.sink.record ⟨.warn, "source.unreadable", some path,
      "could not read " ++ String.ofList (g.locate path) ++ ": " ++ cause.message⟩
    return none

/-- The metadata of a file. Fields that make no sense are reported. -/
def metadata? (path : String) : Run (Option Metadata) := do
  match ← g.readSource path with
  | none => return none
  | some text => do
    let (metadata, notices) := Metadata.extractWith text.toList (some path)
    g.sink.recordAll notices
    return metadata

/-- The decision of the rules on a file with that metadata. -/
def judge (path : String) (metadata : Option Metadata) : Run Decision := do
  let approval ← g.ledger.status? path
  let (decision, notices) := g.book.evaluate metadata approval (g.key path)
  g.sink.recordAll notices
  return decision

/-- Whether a file may be modified. -/
def check (path : String) : Run Decision := do g.judge path (← g.metadata? path)

/-- Whether one method of a file may be modified: what is said of the file and of the method. -/
def checkMethod (path method : String) : Run Decision := do
  let metadata ← g.metadata? path
  let decision ← g.judge path metadata
  return decision.merge (g.book.evaluateMethod metadata method)

/-! ## Approvals -/

def approve (path : String) (slot : Slot) (approver : String) : Trial Status :=
  g.ledger.approve path slot approver

def status? (path : String) : Run (Option Status) := g.ledger.status? path

def invalidate (path reason : String) : Trial Unit := g.ledger.invalidate path reason

/-! ## After a modification -/

/-- What is due after a file was modified. -/
def followUps (path : String) : Run (List FollowUp) := return FollowUp.after (← g.metadata? path)

/-- Stamps the block of a file with the time; a file without a block is left alone. -/
def touch (path : String) : Trial Unit := do
  match ← g.readSource path with
  | none => return
  | some text =>
    match Metadata.touch text.toList (← Run.timeStamp) with
    | none => return
    | some touched => Trial.io (Run.writeText (g.locate path) (String.ofList touched))

/-- Carries out one action, if it is the gate's own. -/
def carryOut (path reason : String) : FollowUp → Trial Unit
  | .invalidateApprovals => g.invalidate path reason
  | .updateLastModified => g.touch path
  | _ => return

/-- Carries out actions in order until one fails. -/
def carryOutAll (path reason : String) : List FollowUp → Trial Unit
  | [] => return
  | a :: rest => do
    g.carryOut path reason a
    carryOutAll path reason rest

/-- Carries out the gate's own actions after a file was modified and yields the others. -/
def recordModification (path reason : String) : Trial (List FollowUp) := do
  let actions ← g.followUps path
  g.carryOutAll path reason actions
  return actions.filter (!·.isOwn)

/-- Sets fields of the metadata of a file. A file that would not change is not written. -/
def updateMetadata (path : String) (patch : Metadata.Patch) : Trial Unit := do
  let text ← Trial.io (Run.readText (g.locate path))
  let updated := String.ofList (Metadata.update text.toList patch (← Run.timeStamp))
  if updated ≠ text then Trial.io (Run.writeText (g.locate path) updated)

end Gate

end EditGate
