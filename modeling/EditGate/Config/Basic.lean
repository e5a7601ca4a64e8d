import EditGate.Config.Toml.Document
import EditGate.Failure
import EditGate.Project
import EditGate.Rule.Basic

/-!
# Configuration

What a project may configure: where its ledger and journal are, whether there is a journal,
whether identical messages are collapsed, and further rules.
-/

namespace EditGate

structure Config where
  ledgerFile : Option String := none
  journalFile : Option String := none
  /-- Whether notices go to the journal. -/
  journal : Bool := true
  /-- Whether identical messages are collapsed. -/
  dedupe : Bool := true
  /-- The rules that follow the built-in ones. -/
  rules : List Rule := []
deriving DecidableEq, Repr, Inhabited

namespace Config

/-- Where the ledger is. -/
def ledgerPath (c : Config) (p : Project) : Path :=
  match c.ledgerFile with
  | some file => p.locate file.toList
  | none => p.ledgerPath

/-- Where the journal is, if there is one. -/
def journalPath (c : Config) (p : Project) : Option Path :=
  if c.journal then
    some (match c.journalFile with
      | some file => p.locate file.toList
      | none => p.journalPath)
  else none

def toJson (c : Config) : Json :=
  .obj [("memory_file", .ofOption .str c.ledgerFile),
    ("journal_file", .ofOption .str c.journalFile), ("journal", .bool c.journal),
    ("dedupe_messages", .bool c.dedupe), ("rules", .arr (c.rules.map Rule.toJson))]

/-- A rule; of an array only as many items count as a rule has fields. -/
def ruleFit : Fit Rule
  | .arr items => Rule.ofJson (.arr (items.take Rule.fit.fields.length))
  | v => Rule.ofJson v

open RecordFit (field) in
def fit : RecordFit Config where
  name := "GateConfig"
  strict := true
  fields := [field "memory_file" Fit.string, field "journal_file" Fit.string,
    field "journal" Fit.boolean, field "dedupe_messages" Fit.boolean,
    field "rules" (Fit.list ruleFit)]
  build g := do
    return {
      ledgerFile := ← g.withDefault "memory_file" none (fun v => (Fit.string v).map some)
      journalFile := ← g.withDefault "journal_file" none (fun v => (Fit.string v).map some)
      journal := ← g.withDefault "journal" true Fit.boolean
      dedupe := ← g.withDefault "dedupe_messages" true Fit.boolean
      rules := ← g.withDefault "rules" [] (Fit.list ruleFit) }

/-- The configuration that a text writes. -/
def read (text : String) : Except Failure Config :=
  match Toml.read? text.toList with
  | none => .error (.config "not readable")
  | some table =>
    match fit.read (.obj table) with
    | .ok c => .ok c
    | .error m => .error (.config m.message)

end Config

end EditGate
