import EditGate.Disk.Basic
import EditGate.Failure
import EditGate.Notice
import EditGate.Stamp

/-!
# The world of a run

Everything that operations of the gate read and change besides the gate itself: the disk, the
clock, the supply of event names, and the diagnostics that were kept. Failures of disk steps can be
planned ahead, so that a run can be looked at whichever of its steps fails.
-/

namespace EditGate

structure World where
  disk : Disk := {}
  /-- Where paths start that do not start at the root. -/
  workingDir : Place := []
  /-- Seconds since 1970. -/
  now : Int := 0
  /-- The number of the next event. -/
  nextEvent : Nat := 0
  /-- The diagnostics that were kept, first one first. -/
  kept : List Diagnostic := []
  /-- What becomes of the coming disk steps: one that has a cause fails with it. Steps beyond the
  plan are carried out. -/
  plan : List (Option Disk.Cause) := []

/-- A run that always answers. -/
abbrev Run := StateM World

/-- A run that a failure can end; what it did to the world stays. -/
abbrev Trial := ExceptT Failure Run

namespace Run

/-! ## Clock and events -/

def timeStamp : Run String := do return stamp (← get).now

/-- The name of a new event. -/
def newEvent : Run String :=
  modifyGet fun w => (eventName w.nextEvent, { w with nextEvent := w.nextEvent + 1 })

/-! ## Disk steps -/

/-- What a step makes of the disk, unless it is planned to fail. -/
def step {α : Type} (f : Disk → Place → Except Disk.Cause (α × Disk)) :
    Run (Except Disk.Cause α) := fun w =>
  match w.plan with
  | some cause :: plan => (.error cause, { w with plan })
  | planned =>
    match f w.disk w.workingDir with
    | .ok (a, disk) => (.ok a, { w with disk, plan := planned.drop 1 })
    | .error cause => (.error cause, { w with plan := planned.drop 1 })

/-- A step that only looks. -/
def look {α : Type} (f : Disk → Place → Except Disk.Cause α) : Run (Except Disk.Cause α) :=
  step fun d wd => (f d wd).map (·, d)

/-- A step that only changes the disk. -/
def change (f : Disk → Place → Except Disk.Cause Disk) : Run (Except Disk.Cause Unit) :=
  step fun d wd => (f d wd).map ((), ·)

def readText (path : Path) : Run (Except Disk.Cause String) :=
  look fun d wd => d.readText wd path

def createFile (path : Path) : Run (Except Disk.Cause Unit) :=
  change fun d wd => d.create wd path

def appendText (path : Path) (text : String) : Run (Except Disk.Cause Unit) :=
  change fun d wd => d.append wd path text.toUTF8

/-- Makes sure that what was written stays. -/
def sync : Run (Except Disk.Cause Unit) := change fun d _ => .ok d

def makeDirectory (path : Path) : Run (Except Disk.Cause Unit) :=
  change fun d wd => d.makeDirectory wd path

def removeFile (path : Path) : Run (Except Disk.Cause Unit) :=
  change fun d wd => d.removeFile wd path

def rename (source target : Path) : Run (Except Disk.Cause Unit) :=
  change fun d wd => d.rename wd source target

def isThere (path : Path) : Run Bool := do
  let w ← get
  return w.disk.isThere w.workingDir path

def isDirectory (path : Path) : Run Bool := do
  let w ← get
  return w.disk.isDirectory w.workingDir path

/-- Writes a whole file: first empties it, then fills it. -/
def writeText (path : Path) (text : String) : Run (Except Disk.Cause Unit) := do
  match ← createFile path with
  | .error cause => return .error cause
  | .ok () => appendText path text

/-- Accepts a directory that could not be made because it is there. -/
def orThere (path : Path) : Except Disk.Cause Unit → Run (Except Disk.Cause Unit)
  | .ok () => return .ok ()
  | .error cause => do
    if ← isDirectory path then return .ok () else return .error cause

/-- Makes a directory and those that lead to it; `limit` bounds how many of those are tried. -/
def makeDirectories : (limit : Nat) → Path → Run (Except Disk.Cause Unit)
  | 0, _ => return .error .noWholeTree
  | limit + 1, path => do
    if path.isEmpty then return .ok ()
    else
      match ← makeDirectory path with
      | .error .notFound =>
        match path.parent? with
        | none => return .error .noWholeTree
        | some parent =>
          match ← makeDirectories limit parent with
          | .error cause => return .error cause
          | .ok () => orThere path (← makeDirectory path)
      | result => orThere path result

/-- Makes the directory that a path is in, and those that lead to it. -/
def makeParents (path : Path) : Run (Except Disk.Cause Unit) :=
  match path.parent? with
  | some parent => makeDirectories (parent.length + 1) parent
  | none => return .ok ()

end Run

namespace Trial

/-- A run whose failing is a failure of the disk. -/
def io {α : Type} (r : Run (Except Disk.Cause α)) : Trial α :=
  ExceptT.mk do return (← r).mapError Failure.io

def refuse {α : Type} (r : Refusal) : Trial α := throw (.validation r)

end Trial

/-! ## Where notices go -/

/-- Where notices go. -/
inductive Sink where
  /-- They are kept. -/
  | keep
  /-- They are appended to a file, one a line. -/
  | journal (path : Path)
  | discard
deriving DecidableEq, Repr

/-- Appends a diagnostic to a journal. A journal that cannot be written is left alone. -/
def appendToJournal (path : Path) (d : Diagnostic) : Run Unit := do
  match ← Run.makeParents path with
  | .error _ => return
  | .ok () => do
    let _ ← Run.appendText path (String.ofList (d.toJson.print ++ ['\n']))

/-- Records a notice. Every notice is an event, wherever it goes. -/
def Sink.record (sink : Sink) (n : Notice) : Run Unit := do
  let d : Diagnostic := ⟨← Run.timeStamp, ← Run.newEvent, n⟩
  match sink with
  | keep => modify fun w => { w with kept := w.kept ++ [d] }
  | journal path => appendToJournal path d
  | discard => return

/-- Records notices in order. -/
def Sink.recordAll (sink : Sink) : List Notice → Run Unit
  | [] => return
  | n :: ns => do
    sink.record n
    sink.recordAll ns

end EditGate
