import EditGate.Json.Value

/-!
# Notices

Nothing that the gate meets is fatal: a field that makes no sense, a condition that cannot be
evaluated, a ledger that cannot be read all lead to a milder answer. A notice says what the answer
was computed without. Functions that work on values return their notices; whoever runs them
decides where notices go.
-/

namespace EditGate

inductive Severity where
  | info
  | warn
  | error
deriving DecidableEq, Repr

def Severity.word : Severity → String
  | info => "info"
  | warn => "warn"
  | error => "error"

/-- Something worth knowing about an answer. -/
structure Notice where
  severity : Severity
  /-- What it is, in dotted words for programs. -/
  code : String
  /-- The file or rule that it is about. -/
  subject : Option String
  message : String
deriving DecidableEq, Repr

/-- A notice with the time and the name of the event. -/
structure Diagnostic where
  time : String
  event : String
  notice : Notice
deriving DecidableEq, Repr

/-- The written form of a diagnostic. -/
def Diagnostic.toJson (d : Diagnostic) : Json :=
  .obj [("ts", .str d.time), ("event_id", .str d.event),
    ("severity", .str d.notice.severity.word), ("code", .str d.notice.code),
    ("subject", .ofOption .str d.notice.subject), ("message", .str d.notice.message)]

end EditGate
