import EditGate.Metadata.Basic
import EditGate.Metadata.Cell

/-!
# Changing metadata

A patch sets some fields of a block and leaves the others alone. Any patch that sets a field also
stamps the time; a text without a block gets one at its top.
-/

namespace EditGate

namespace Metadata

/-- The fields to set. -/
structure Patch where
  stability : Option Stability := none
  editPermissions : Option EditPermission := none
  methodPermissions : Option (Keyed MethodPermission) := none
  breakingChangesRisk : Option RiskLevel := none
  reviewRequired : Option Bool := none
  aiContext : Option String := none
  dependencies : Option (List String) := none
  tests : Option (List String) := none
deriving DecidableEq, Repr, Inhabited

/-! ## Written values -/

def inQuotes (s : String) : String := "\"" ++ s ++ "\""

def writeList (ss : List String) : String := "[" ++ ", ".intercalate (ss.map inQuotes) ++ "]"

def writePermissions (map : Keyed MethodPermission) : String :=
  if map.isEmpty then "\x7b\x7d"
  else
    "\x7b " ++ ", ".intercalate (map.map fun b => inQuotes b.1 ++ ": " ++ inQuotes b.2.word) ++
      " \x7d"

/-- A free text on one line and between quotes: line breaks become spaces and double quotes
single ones. -/
def writeText (s : String) : String :=
  inQuotes (String.ofList (Text.replaceChar '"' '\x27'
    (Text.replaceChar '\r' ' ' (Text.replaceChar '\n' ' ' s.toList))))

def writeBool (b : Bool) : String := if b then "true" else "false"

namespace Patch

/-- A field with its written value, if it is to be set. -/
def entry {α : Type} (f : Field) (write : α → String) (a : Option α) : List (Field × String) :=
  a.toList.map fun a => (f, write a)

/-- The fields to set with their written values, in the order of a block. -/
def entries (p : Patch) : List (Field × String) :=
  entry .stability Stability.word p.stability ++
  entry .editPermissions EditPermission.word p.editPermissions ++
  entry .methodPermissions writePermissions p.methodPermissions ++
  entry .breakingChangesRisk RiskLevel.word p.breakingChangesRisk ++
  entry .reviewRequired writeBool p.reviewRequired ++
  entry .aiContext writeText p.aiContext ++
  entry .dependencies writeList p.dependencies ++
  entry .tests writeList p.tests

def isEmpty (p : Patch) : Bool := p.entries.isEmpty

open RecordFit (field) in
def fit : RecordFit Patch where
  name := "MetadataPatch"
  strict := true
  fields := [field "stability" (Fit.optional (Enumerated.fit (α := Stability))),
    field "editPermissions" (Fit.optional (Enumerated.fit (α := EditPermission))),
    field "methodPermissions" (Fit.optional (Fit.keyed (Enumerated.fit (α := MethodPermission)))),
    field "breakingChangesRisk" (Fit.optional (Enumerated.fit (α := RiskLevel))),
    field "reviewRequired" (Fit.optional Fit.boolean),
    field "aiContext" (Fit.optional Fit.string),
    field "dependencies" (Fit.optional (Fit.list Fit.string)),
    field "tests" (Fit.optional (Fit.list Fit.string))]
  build g := do
    return {
      stability := ← g.withDefault "stability" none (Fit.optional Enumerated.fit)
      editPermissions := ← g.withDefault "editPermissions" none (Fit.optional Enumerated.fit)
      methodPermissions :=
        ← g.withDefault "methodPermissions" none (Fit.optional (Fit.keyed Enumerated.fit))
      breakingChangesRisk :=
        ← g.withDefault "breakingChangesRisk" none (Fit.optional Enumerated.fit)
      reviewRequired := ← g.withDefault "reviewRequired" none (Fit.optional Fit.boolean)
      aiContext := ← g.withDefault "aiContext" none (Fit.optional Fit.string)
      dependencies := ← g.withDefault "dependencies" none (Fit.optional (Fit.list Fit.string))
      tests := ← g.withDefault "tests" none (Fit.optional (Fit.list Fit.string)) }

/-- The patch that a value writes. -/
def ofJson : Fit Patch := fit.read

end Patch

/-! ## Applying a patch -/

/-- A line of a block that is written anew. -/
def newLine (e : Field × String) : List Char :=
  " * @".toList ++ e.1.keyText ++ ':' :: ' ' :: e.2.toList ++ ['\n']

/-- A text with a new block at its top. -/
def withNewBlock (entries : List (Field × String)) (text : List Char) : List Char :=
  "/**\n * ".toList ++ marker ++ ['\n'] ++ entries.flatMap newLine ++ " */\n".toList ++
    if text.isEmpty then [] else '\n' :: text

/-- The text with each of some fields set, in order. -/
def setFields (text : List Char) (entries : List (Field × String)) : List Char :=
  entries.foldl (fun text e => setField text e.1 e.2.toList) text

/-- The text with a patch applied at a time. -/
def update (text : List Char) (p : Patch) (time : String) : List Char :=
  if p.isEmpty then text
  else
    let entries := p.entries ++ [(.lastModified, time)]
    match Block.locate? text with
    | none => withNewBlock entries text
    | some _ => setFields text entries

/-- The text with only the time of its block set; none without a block. -/
def touch (text : List Char) (time : String) : Option (List Char) :=
  (Block.locate? text).map fun b => b.set .lastModified time.toList

end Metadata

end EditGate
