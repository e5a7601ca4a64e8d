import EditGate.Disk.Cause
import EditGate.Path

/-!
# Disks

A disk is a tree of files and directories, kept as a list of places. A place is the list of names
that lead to it from the root, so every file has one place however it is spelled. Steps follow the
rules of the system: directories on the way have to exist, going up leads to the parent directory,
a slash at the end asks for a directory.
-/

namespace EditGate

/-- The names that lead from the root to a file or directory. -/
abbrev Place := List String

/-- The path of a place. -/
def Path.ofPlace (p : Place) : Path :=
  if p = [] then ['/'] else p.flatMap fun name => '/' :: name.toList

/-- What is at a place. -/
inductive Node where
  | file (content : ByteArray)
  | directory
deriving Inhabited

/-- Two files are equal if their bytes are. -/
instance : DecidableEq Node
  | .file a, .file b => decidable_of_iff (a.data = b.data) (by simp [ByteArray.ext_iff])
  | .directory, .directory => isTrue rfl
  | .file _, .directory => isFalse nofun
  | .directory, .file _ => isFalse nofun

/-- What is where. The root is always there. -/
structure Disk where
  entries : List (Place × Node) := []
deriving DecidableEq, Inhabited

namespace Disk

def node? (d : Disk) (p : Place) : Option Node :=
  if p = [] then some .directory else d.entries.lookup p

def isDirectoryAt (d : Disk) (p : Place) : Bool := d.node? p = some .directory

/-- Replaces what is at a place, or adds it. -/
def putIn (p : Place) (n : Node) : List (Place × Node) → List (Place × Node)
  | [] => [(p, n)]
  | (q, m) :: es => if q = p then (p, n) :: es else (q, m) :: putIn p n es

def put (d : Disk) (p : Place) (n : Node) : Disk := ⟨putIn p n d.entries⟩

/-- Removes a place and all below it. -/
def removeTree (d : Disk) (p : Place) : Disk := ⟨d.entries.filter fun e => !p.isPrefixOf e.1⟩

/-- The place that a place has once `source` is moved to `target`. -/
def moved (source target p : Place) : Place :=
  if source.isPrefixOf p then target ++ p.drop source.length else p

/-- Moves a place and all below it to where nothing is. -/
def moveTree (d : Disk) (source target : Place) : Disk :=
  ⟨(d.removeTree target).entries.map fun e => (moved source target e.1, e.2)⟩

/-- Whether something is below a place. -/
def hasEntriesBelow (d : Disk) (p : Place) : Bool :=
  d.entries.any fun e => p.isPrefixOf e.1 && e.1 ≠ p

/-! ## Finding places -/

/-- The most bytes of a name. -/
def nameMax : Nat := 255

/-- The most bytes of a path. -/
def pathMax : Nat := 4095

/-- The directory that a name leads to from a directory. -/
def descend (d : Disk) (dir : Place) (name : List Char) : Except Cause Place :=
  if name = [] ∨ name = Path.dot then .ok dir
  else if name = Path.dotDot then .ok dir.dropLast
  else if Text.utf8Length name > nameMax then .error .nameTooLong
  else
    let p := dir ++ [String.ofList name]
    match d.node? p with
    | none => .error .notFound
    | some (.file _) => .error .notADirectory
    | some .directory => .ok p

/-- What a path comes to. -/
inductive Spot where
  /-- A directory that is there, spelled as a way and not by its name. -/
  | here (p : Place)
  /-- A name in a directory that is there, with or without a slash after it. -/
  | named (dir : Place) (name : String) (slash : Bool)
deriving DecidableEq, Repr

def Spot.place : Spot → Place
  | here p => p
  | named dir name _ => dir ++ [name]

/-- What a path comes to, seen from a directory. -/
def find (d : Disk) (workingDir : Place) (path : Path) : Except Cause Spot :=
  if path.contains '\x00' then .error .nulInName
  else if path.isEmpty then .error .notFound
  else if Text.utf8Length path > pathMax then .error .nameTooLong
  else
    let start := if path.isAbsolute then [] else workingDir
    let pieces := (Text.splitOn '/' path).reverse
    match pieces.dropWhile (· = []) with
    | [] => .ok (.here start)
    | last :: before => do
      let dir ← before.reverse.foldlM d.descend start
      if last = Path.dot ∨ last = Path.dotDot then return .here (← d.descend dir last)
      else return .named dir (String.ofList last) (pieces.head? = some [])

/-- What has a name in a directory. -/
def child? (d : Disk) (dir : Place) (name : String) : Except Cause (Option Node) :=
  if Text.utf8Length name.toList > nameMax then .error .nameTooLong
  else .ok (d.node? (dir ++ [name]))

/-! ## Steps -/

/-- The bytes of a file. -/
def read (d : Disk) (wd : Place) (path : Path) : Except Cause ByteArray := do
  match ← d.find wd path with
  | .here _ => .error .isADirectory
  | .named dir name slash =>
    match ← d.child? dir name with
    | none => .error .notFound
    | some .directory => .error .isADirectory
    | some (.file content) => if slash then .error .notADirectory else .ok content

/-- The text of a file. -/
def readText (d : Disk) (wd : Place) (path : Path) : Except Cause String := do
  match String.fromUTF8? (← d.read wd path) with
  | some s => return s
  | none => .error .notText

/-- The place of a file that can be written. -/
def writable (d : Disk) (wd : Place) (path : Path) : Except Cause Place := do
  match ← d.find wd path with
  | .here _ => .error .isADirectory
  | .named dir name slash =>
    if slash then .error .isADirectory
    else
      match ← d.child? dir name with
      | some .directory => .error .isADirectory
      | _ => .ok (dir ++ [name])

/-- Makes a file empty, creating it if it is not there. -/
def create (d : Disk) (wd : Place) (path : Path) : Except Cause Disk := do
  return d.put (← d.writable wd path) (.file .empty)

/-- Adds bytes to the end of a file, creating it if it is not there. -/
def append (d : Disk) (wd : Place) (path : Path) (bytes : ByteArray) : Except Cause Disk := do
  let p ← d.writable wd path
  let content :=
    match d.node? p with
    | some (.file content) => content
    | _ => .empty
  return d.put p (.file (content ++ bytes))

/-- Whether something is at a path. -/
def isThere (d : Disk) (wd : Place) (path : Path) : Bool :=
  match d.find wd path with
  | .error _ => false
  | .ok (.here _) => true
  | .ok (.named dir name slash) =>
    match d.node? (dir ++ [name]) with
    | none => false
    | some .directory => true
    | some (.file _) => !slash

/-- Whether a directory is at a path. -/
def isDirectory (d : Disk) (wd : Place) (path : Path) : Bool :=
  match d.find wd path with
  | .error _ => false
  | .ok spot => d.isDirectoryAt spot.place

/-- Makes a directory. -/
def makeDirectory (d : Disk) (wd : Place) (path : Path) : Except Cause Disk := do
  match ← d.find wd path with
  | .here _ => .error .alreadyExists
  | .named dir name _ =>
    match ← d.child? dir name with
    | none => return d.put (dir ++ [name]) .directory
    | some _ => .error .alreadyExists

/-- Removes a file. -/
def removeFile (d : Disk) (wd : Place) (path : Path) : Except Cause Disk := do
  match ← d.find wd path with
  | .here _ => .error .isADirectory
  | .named dir name slash =>
    match ← d.child? dir name with
    | none => .error .notFound
    | some .directory => .error .isADirectory
    | some (.file _) => if slash then .error .notADirectory else return d.removeTree (dir ++ [name])

/-- Whether what is at `source` may take the place of what is at `target`. -/
def mayReplace (d : Disk) (source target : Place) : Except Cause Unit :=
  match d.node? source, d.node? target with
  | _, none => .ok ()
  | some .directory, some (.file _) => .error .notADirectory
  | some .directory, some .directory =>
    if d.hasEntriesBelow target then .error .notEmpty else .ok ()
  | _, some .directory => .error .isADirectory
  | _, some (.file _) => .ok ()

/-- Gives a file or directory another place, in place of what is there. -/
def rename (d : Disk) (wd : Place) (source target : Path) : Except Cause Disk := do
  match ← d.find wd source, ← d.find wd target with
  | .named dir name slash, .named dir' name' slash' =>
    let p := dir ++ [name]
    let q := dir' ++ [name']
    match ← d.child? dir name with
    | none => .error .notFound
    | some n => do
      let _ ← d.child? dir' name'
      if n ≠ .directory ∧ (slash ∨ slash') then .error .notADirectory
      else if p = q then return d
      else if p.isPrefixOf q then .error .invalidArgument
      else if q.isPrefixOf p then .error .notEmpty
      else do
        d.mayReplace p q
        return d.moveTree p q
  | _, _ => .error .busy

end Disk

end EditGate
