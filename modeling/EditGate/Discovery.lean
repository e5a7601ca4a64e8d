import EditGate.Failure
import EditGate.Project
import EditGate.World

/-!
# Finding the project

The project of a directory is the nearest one that holds a state directory: the directory itself
or one that it lies in.
-/

namespace EditGate

/-- A path and what remains as its last components are dropped one by one; `limit` bounds how
many. -/
def Path.ancestorsWithin : (limit : Nat) → Path → List Path
  | 0, p => [p]
  | limit + 1, p =>
    match p.parent? with
    | none => [p]
    | some parent => p :: ancestorsWithin limit parent

/-- A path and all directories that it leads through, the nearest one first. -/
def Path.ancestors (p : Path) : List Path := p.ancestorsWithin p.length

namespace Project

/-- The first of some directories that holds a state directory. -/
def firstOf : List Path → Run (Option Project)
  | [] => return none
  | p :: ps => do
    if ← Run.isDirectory (Project.stateDirectory ⟨p⟩) then return some ⟨p⟩ else firstOf ps

/-- The failure to find a project. -/
def nowhere : Failure :=
  .notFound ("\x27" ++ String.ofList stateDirectoryName ++
    "\x27 directory not found in current or parent directories")

/-- The project of a directory. -/
def find (start : Path) : Trial Project := do
  match ← firstOf start.ancestors with
  | some p => return p
  | none => throw nowhere

end Project

end EditGate
