import EditGate.Path

/-!
# Projects

A project is a directory tree; the state of the gate lives in one directory at its root. The key of
a file in the ledger is its path from the root.
-/

namespace EditGate

structure Project where
  root : Path
deriving DecidableEq, Repr

namespace Project

def stateDirectoryName : List Char := ".carapace".toList

def stateDirectory (p : Project) : Path := p.root.join stateDirectoryName

def configPath (p : Project) : Path := p.stateDirectory.join "config.toml".toList

/-- Where the ledger is kept unless configured otherwise. -/
def ledgerPath (p : Project) : Path := p.stateDirectory.join "project-memory.json".toList

/-- Where the journal is kept unless configured otherwise. -/
def journalPath (p : Project) : Path := p.stateDirectory.join "gate.events.jsonl".toList

/-- Where a path given for the project leads: a relative one starts at the root. -/
def locate (p : Project) (path : Path) : Path := if path.isAbsolute then path else p.root.join path

/-- The key of a file in the ledger. -/
def key (p : Project) (path : String) : String := String.ofList (Path.key p.root path.toList)

end Project

end EditGate
