import EditGate.Cli.Run
import Std.Time.DateTime.Timestamp

/-!
# The program

The outer layer: it brings the files that a command may look at into a world, runs the command
there, and carries out on the real disk what changed. A session is run line by line, so that each
reply is sent before the next request is read.
-/

namespace EditGate.Program

/-! ## From the real disk -/

/-- The place of one more piece of a path, and the places before it. -/
def follow (ps : Place × List Place) (piece : List Char) : Place × List Place :=
  let p :=
    if piece = [] ∨ piece = Path.dot then ps.1
    else if piece = Path.dotDot then ps.1.dropLast
    else ps.1 ++ [String.ofList piece]
  (p, p :: ps.2)

/-- The places that a path leads through, seen from a directory, the last one first. -/
def placesOn (workingDir : Place) (path : Path) : List Place :=
  let start := if path.isAbsolute then [] else workingDir
  ((Text.splitOn '/' path).foldl follow (start, [start])).2

def placeText (p : Place) : String := String.ofList (Path.ofPlace p)

/-- What is at a place on the real disk. A directory can be opened but not read, so the error of
reading one names no file. -/
def realNode? (p : Place) : IO (Option Node) := do
  try return some (.file (← IO.FS.readBinFile (placeText p)))
  catch
    | .inappropriateType none _ _ => return some .directory
    | _ => return none

/-- Brings the places that a path leads through into a disk. -/
def fetch (workingDir : Place) (d : Disk) (path : Path) : IO Disk :=
  (placesOn workingDir path).reverse.foldlM (fun d p => do
    match ← realNode? p with
    | some n => return d.put p n
    | none => return d.removeTree p) d

def fetchAll (w : World) (paths : List Path) : IO World := do
  return { w with disk := ← paths.foldlM (fetch w.workingDir) w.disk }

/-! ## To the real disk -/

/-- What to add to a content to get another that starts with it. -/
def continuation? (old new : ByteArray) : Option ByteArray :=
  if (new.extract 0 old.size).data = old.data then some (new.extract old.size new.size) else none

/-- Writes a file: at its end if the new content only adds to the old one, else to a second file
that takes its place. -/
def writeReal (path : String) (old : Option Node) (content : ByteArray) : IO Unit := do
  match old.bind fun n => match n with
    | .file old => continuation? old content
    | .directory => none with
  | some more => IO.FS.withFile path .append fun h => h.write more
  | none => do
    IO.FS.writeBinFile (path ++ "~") content
    IO.FS.rename (path ++ "~") path

/-- Carries out on the real disk what differs between two disks. -/
def carryOut (before after : Disk) : IO Unit := do
  for (p, n) in after.entries do
    if before.node? p ≠ some n then
      match n with
      | .directory => IO.FS.createDir (placeText p)
      | .file content => writeReal (placeText p) (before.node? p) content
  for (p, _) in before.entries do
    if (after.node? p).isNone then IO.FS.removeFile (placeText p)

/-! ## Worlds -/

def realTime : IO Int := return (← Std.Time.Timestamp.now).toSecondsSinceUnixEpoch.val

/-- The number of the first event of a run: the time in milliseconds and random bits after it. -/
def firstEvent (now : Int) : IO Nat := do
  let bytes ← IO.getRandomBytes 10
  return bytes.toList.foldl (fun n b => 256 * n + b.toNat) (1000 * now.toNat)

/-- A world as it is now, with nothing fetched. -/
def realWorld : IO World := do
  let now ← realTime
  let here := placesOn [] (← IO.currentDir).toString.toList
  return { workingDir := here.headD [], now, nextEvent := ← firstEvent now }

/-- Runs something in a world and on the real disk. -/
def inReality {α : Type} (w : World) (r : Run α) : IO (α × World) := do
  let (a, w') := r.run w
  carryOut w.disk w'.disk
  return (a, w')

/-- What a gate looks at besides the file that it is asked about. -/
def statePaths (g : Gate) : List Path :=
  [g.ledgerPath, g.ledger.draftPath] ++
    match g.sink with
    | .journal path => [path]
    | _ => []

/-! ## Running -/

/-- The world of an invocation with all that its gate needs to be opened. -/
def worldFor (i : Cli.Invocation) : IO (World × Project) := do
  let w ← realWorld
  let here := Path.ofPlace w.workingDir
  let w ← fetchAll w (here.ancestors.map fun p => Project.stateDirectory ⟨p⟩)
  let project := (i.project.run w).1
  return (← fetchAll w [project.configPath], project)

/-- The file that a line of a session asks about. -/
def fileOfLine? (g : Gate) (line : List UInt8) : Option Path := do
  let request ← Rpc.Request.read? (← Rpc.lineText? line)
  let operation ← request.operation?.toOption
  return g.locate (← operation.file?)

/-- Answers lines until there are no more. -/
partial def serve (input output : IO.FS.Stream) (g : Gate) (w : World) : IO Cli.Ending := do
  let line ← readLine .empty
  if line.isEmpty then return .done
  let bytes := line.toList
  let now ← realTime
  let w ← fetchAll { w with now } (statePaths g ++ (fileOfLine? g bytes).toList)
  let (session, w) ← inReality w (Rpc.serve g bytes)
  for reply in session.replies do
    output.putStrLn (String.ofList reply.line)
    output.flush
  match session.ending with
  | .ok () => serve input output session.gate w
  | .error f => return .failed f
where
  readLine (line : ByteArray) : IO ByteArray := do
    let byte ← input.read 1
    if byte.isEmpty then return line
    else if byte.toList = [0x0a] then return line ++ byte
    else readLine (line ++ byte)

def report : Cli.Ending → IO Unit
  | .failed f => IO.eprintln ("Error: " ++ f.message)
  | .refused => IO.eprintln "usage: editgate [--root ROOT] COMMAND [ARGUMENT]..."
  | _ => return

/-- Runs an invocation on the real disk. -/
def runInvocation (i : Cli.Invocation) : IO Cli.Ending := do
  let output ← IO.getStdout
  let (w, project) ← worldFor i
  match (Gate.ofProject project none).run.run w with
  | (.error _, _) =>
    let (outcome, _) ← inReality w (i.run false [])
    output.putStr outcome.output
    return outcome.ending
  | (.ok g, w) =>
    if i.command = .serve then serve (← IO.getStdin) output g w
    else
      let w ← fetchAll w (statePaths g ++ (i.command.file?.map g.locate).toList)
      let (outcome, _) ← inReality w (i.run (← output.isTty) [])
      output.putStr outcome.output
      return outcome.ending

end EditGate.Program

def main (args : List String) : IO UInt32 := do
  let ending ← match EditGate.Cli.Invocation.ofArguments? args with
    | some i => EditGate.Program.runInvocation i
    | none => pure .refused
  EditGate.Program.report ending
  return UInt32.ofNat ending.exitCode
