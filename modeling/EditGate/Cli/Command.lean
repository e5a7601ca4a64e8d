import EditGate.Cli.Arguments
import EditGate.Metadata.Patch
import EditGate.Path
import EditGate.Rpc.Request

/-!
# Commands

What can be asked on the command line. Anything that is not exactly a command with the options it
has is refused.
-/

namespace EditGate.Cli

open Approval (Slot)

/-- How a listing is written. -/
inductive Format where
  | text
  | json
deriving DecidableEq, Repr

inductive Command where
  | check (path : String) (method : Option String) (format : Format)
  | followUps (path : String)
  | recordModification (path reason : String)
  | approve (path : String) (slot : Slot) (approver : String)
  | status (path : String)
  | invalidate (path reason : String)
  | showMetadata (path : String)
  | setMetadata (path : String) (patch : Metadata.Patch)
  | rules (format : Format)
  | ledger (format : Format)
  | serve
  | version
deriving DecidableEq, Repr

/-- The file that a command is about. -/
def Command.file? : Command → Option String
  | check path _ _ | followUps path | recordModification path _ => some path
  | approve path _ _ | status path | invalidate path _ => some path
  | showMetadata path | setMetadata path _ => some path
  | rules _ | ledger _ | serve | version => none

/-- A command and the project that it is for, if that is given. -/
structure Invocation where
  root : Option Path
  command : Command
deriving DecidableEq, Repr

/-! ## Values of options -/

namespace Given

/-- An option with one of several words as its value; `absent` if it is not given. -/
def choice? {α : Type} (g : Given) (name : String) (words : List (String × α)) (absent : Option α) :
    Option α :=
  match g.value? name with
  | some word => words.lookup word
  | none => absent

/-- An option that may be left out, with one of several words as its value. -/
def optional? {α : Type} (g : Given) (name : String) (words : List (String × α)) :
    Option (Option α) :=
  g.choice? name (words.map fun w => (w.1, some w.2)) (some none)

def format? (g : Given) : Option Format :=
  g.choice? "format" [("text", .text), ("json", .json)] (some .text)

def slot? (g : Given) : Option Slot :=
  g.choice? "slot" (Slot.all.map fun s => (s.dashedName, s)) none

def reason (g : Given) : String := (g.value? "reason").getD Rpc.defaultReason

def patch? (g : Given) : Option Metadata.Patch := do
  return {
    stability := ← g.optional? "stability" Enumerated.variants
    editPermissions := ← g.optional? "edit-permissions" Enumerated.variants
    breakingChangesRisk := ← g.optional? "risk" Enumerated.variants
    reviewRequired := ← g.optional? "review-required" [("true", true), ("false", false)]
    aiContext := g.value? "context" }

/-- The command that takes no plain argument. -/
def bare? (g : Given) (c : Command) : Option Command := if g.plain.isEmpty then some c else none

end Given

/-! ## Commands by name -/

/-- The option of every command. -/
def rootOption : String := "root"

/-- A command by its words: the options that it has and what to make of its arguments. -/
structure Entry where
  words : List String
  valued : List String := []
  switches : List String := []
  build : Given → Option Command

def Entry.shape (e : Entry) : Shape := ⟨rootOption :: e.valued, e.switches⟩

def entries : List Entry :=
  [{ words := ["check"]
     valued := ["method", "format"]
     build := fun g => do return .check (← g.single?) (g.value? "method") (← g.format?) },
   { words := ["actions"]
     valued := ["reason"]
     switches := ["apply"]
     build := fun g => do
       let path ← g.single?
       return if "apply" ∈ g.switches then .recordModification path g.reason
         else .followUps path },
   { words := ["approve"]
     valued := ["slot", "by"]
     build := fun g => do return .approve (← g.single?) (← g.slot?) (← g.value? "by") },
   { words := ["status"]
     build := fun g => do return .status (← g.single?) },
   { words := ["invalidate"]
     valued := ["reason"]
     build := fun g => do return .invalidate (← g.single?) g.reason },
   { words := ["metadata", "show"]
     build := fun g => do return .showMetadata (← g.single?) },
   { words := ["metadata", "set"]
     valued := ["stability", "edit-permissions", "risk", "review-required", "context"]
     build := fun g => do return .setMetadata (← g.single?) (← g.patch?) },
   { words := ["rules", "list"]
     valued := ["format"]
     build := fun g => do g.bare? (.rules (← g.format?)) },
   { words := ["ledger", "list"]
     valued := ["format"]
     build := fun g => do g.bare? (.ledger (← g.format?)) },
   { words := ["rpc"]
     build := fun g => g.bare? .serve },
   { words := ["version"]
     build := fun g => g.bare? .version }]

/-- Whether a word starts commands of two words. -/
def isGroup (word : String) : Bool :=
  entries.any fun e => e.words.length = 2 && e.words.head? = some word

/-! ## Invocations -/

/-- The project named among some arguments; an empty name is refused. -/
def root? (outer : Option String) (g : Given) : Option (Option String) :=
  match g.value? rootOption with
  | some "" => none
  | some root => some (some root)
  | none => some outer

/-- The command of some words and arguments. -/
def finish (words : List String) (root : Option String) (args : List String) :
    Option Invocation := do
  let e ← entries.find? (·.words = words)
  let g ← sortOut e.shape {} args
  return ⟨(← root? root g).map String.toList, ← e.build g⟩

/-- The invocation that some arguments write. The project may be named before each word of the
command and after it; the last name counts. -/
def Invocation.ofArguments? (args : List String) : Option Invocation := do
  let (g, word, args) ← untilPlain ⟨[rootOption], []⟩ {} args
  let root ← root? none g
  if isGroup word then
    let (g, word', args) ← untilPlain ⟨[rootOption], []⟩ {} args
    finish [word, word'] (← root? root g) args
  else finish [word] root args

end EditGate.Cli
