import EditGate.Cli.Command
import EditGate.Discovery
import EditGate.Render
import EditGate.Rpc.Session

/-!
# Running a command

What a command prints and how it ends. A check that forbids the modification ends like a refused
command line, so that scripts need not read the output.
-/

namespace EditGate.Cli

/-- How a command ends. -/
inductive Ending where
  | done
  /-- The modification is not allowed. -/
  | blocked
  /-- The command line is none. -/
  | refused
  | failed (f : Failure)
deriving DecidableEq, Repr

def Ending.exitCode : Ending → Nat
  | done => 0
  | failed _ => 1
  | blocked => 2
  | refused => 2

/-- What is printed and how it ends. -/
structure Outcome where
  output : String := ""
  ending : Ending := .done
deriving DecidableEq, Repr

/-- Lines with the line feeds that end them. -/
def inLines (ls : List String) : String := String.join (ls.map (· ++ "\n"))

/-- The outcome of a run that yields lines to print, unless it fails. -/
def printed (r : Trial (List String)) : Run Outcome := do
  match ← r.run with
  | .ok ls => return { output := inLines ls }
  | .error f => return { ending := .failed f }

def jsonLine (v : Json) : String := String.ofList v.pretty

/-- The name and number of this program's version. -/
def versionLine : String := "v0.1.0"

/-- The patch of a command, which has to set a field. -/
def updateMetadata (g : Gate) (path : String) (patch : Metadata.Patch) : Trial (List String) := do
  if patch.isEmpty then Trial.refuse .nothingToUpdate
  else
    g.updateMetadata path patch
    return ["Updated " ++ ", ".intercalate (patch.entries.map (·.1.key)) ++ " in " ++ path]

/-- What a decision is printed as. -/
def decisionLine (color : Bool) (path : String) (d : Decision) : Format → String
  | .text => Render.decision color path d
  | .json => jsonLine d.toJson

/-- The lines of a listing of the ledger. -/
def ledgerLines (color : Bool) (entries : Keyed Approval.Status) : Format → List String
  | .json => [jsonLine (.obj (Keyed.mapValues Approval.Status.toJson entries))]
  | .text =>
    if entries.isEmpty then ["Ledger is empty."]
    else entries.map fun e => Render.status color e.1 (some e.2)

def ruleLines (color : Bool) (rules : List Rule) : Format → List String
  | .json => [jsonLine (.arr (rules.map Rule.toJson))]
  | .text => rules.map (Render.rule color)

/-- Runs a command on an open gate, with `input` to read. -/
def runOn (color : Bool) (g : Gate) (input : List UInt8) : Command → Run Outcome
  | .check path method format => do
    let d ← match method with
      | some m => g.checkMethod path m
      | none => g.check path
    return {
      output := inLines [decisionLine color path d format]
      ending := if d.allowed then .done else .blocked }
  | .followUps path => printed do return [Render.followUps (← g.followUps path)]
  | .recordModification path reason => printed do
    let remaining ← g.recordModification path reason
    return ["Recorded modification of " ++ path, Render.followUps remaining]
  | .approve path slot approver => printed do
    return [Render.status color (g.key path) (some (← g.approve path slot approver))]
  | .status path => printed do return [Render.status color (g.key path) (← g.status? path)]
  | .invalidate path reason => printed do
    g.invalidate path reason
    return ["Approvals invalidated for " ++ g.key path]
  | .showMetadata path => printed do
    return [jsonLine (.ofOption Metadata.toJson (← g.metadata? path))]
  | .setMetadata path patch => printed (updateMetadata g path patch)
  | .rules format => printed do return ruleLines color g.rules format
  | .ledger format => printed do return ledgerLines color (← g.ledger.statuses) format
  | .serve => do
    let session ← Rpc.serve g input
    return {
      output := inLines (session.replies.map fun r => String.ofList r.line)
      ending := match session.ending with
        | .ok () => .done
        | .error f => .failed f }
  | .version => return { output := inLines [versionLine] }

/-- The project of an invocation: the named one, or else the one that the working directory is in,
or else the working directory itself. -/
def Invocation.project (i : Invocation) : Run Project := do
  match i.root with
  | some root => return ⟨root⟩
  | none => do
    let here := Path.ofPlace (← get).workingDir
    match ← (Project.find here).run with
    | .ok p => return p
    | .error _ => return ⟨here⟩

/-- Runs a command with `input` to read. -/
def Invocation.run (color : Bool) (i : Invocation) (input : List UInt8) : Run Outcome := do
  if i.command = .version then return { output := inLines [versionLine] }
  else
    match ← (Gate.ofProject (← i.project) none).run with
    | .ok g => runOn color g input i.command
    | .error f => return { ending := .failed f }

/-- Runs a command line with `input` to read. -/
def run (color : Bool) (args : List String) (input : List UInt8) : Run Outcome :=
  match Invocation.ofArguments? args with
  | some i => i.run color input
  | none => return { ending := .refused }

end EditGate.Cli
