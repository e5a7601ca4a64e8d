import EditGate.Json.Fit

/-!
# Rules

A rule has a condition that a modification should meet and a message for when it does not. Above
the threshold of priority the message blocks; otherwise it warns.
-/

namespace EditGate

structure Rule where
  id : String
  name : String
  /-- The condition that should hold. -/
  condition : String
  /-- What is said when it does not. -/
  action : String
  priority : Int
  enabled : Bool := true
deriving DecidableEq, Repr

namespace Rule

/-- The highest priority that does not block. -/
def warningLimit : Int := 8

def isBlocking (r : Rule) : Bool := r.priority > warningLimit

def toJson (r : Rule) : Json :=
  .obj [("id", .str r.id), ("name", .str r.name), ("condition", .str r.condition),
    ("action", .str r.action), ("priority", .int r.priority), ("enabled", .bool r.enabled)]

open RecordFit (field) in
def fit : RecordFit Rule where
  name := "Rule"
  strict := true
  fields := [field "id" Fit.string, field "name" Fit.string, field "condition" Fit.string,
    field "action" Fit.string, field "priority" Fit.int32, field "enabled" Fit.boolean]
  build g := do
    return {
      id := ← g.required "id" Fit.string
      name := ← g.required "name" Fit.string
      condition := ← g.required "condition" Fit.string
      action := ← g.required "action" Fit.string
      priority := ← g.required "priority" Fit.int32
      enabled := ← g.withDefault "enabled" true Fit.boolean }

def ofJson : Fit Rule := fit.read

end Rule

/-! ## Fixed messages -/

namespace Message

def readOnly : String := "File is marked as read-only"

def highRisk : String := "High-risk file requires dev approval before modification"

def reviewRequired : String := "File requires code review approval before modification"

def stableNeedsDev : String := "Stable code should have dev approval before modification"

def deprecated : String := "This file is deprecated — consider if modification is necessary"

def addOnly : String := "File is add-only — existing code should not be changed"

def methodReadOnly (method : String) : String := "Method '" ++ method ++ "' is marked as read-only"

def methodRestricted (method : String) : String :=
  "Method '" ++ method ++ "' is restricted — changes need extra care"

end Message

/-- The rules that every gate starts with. -/
def builtinRules : List Rule :=
  [{ id := "read-only-protection", name := "Read-only protection",
     condition := "!isReadOnly()", action := Message.readOnly, priority := 10 },
   { id := "high-risk-needs-dev-approval", name := "High-risk files need dev approval",
     condition := "!isHighRisk() || hasApproval(\"dev\")", action := Message.highRisk,
     priority := 9 },
   { id := "review-required", name := "Review required",
     condition := "!metadata.reviewRequired || hasApproval(\"codeReview\")",
     action := Message.reviewRequired, priority := 8 },
   { id := "stable-code-needs-dev-approval", name := "Stable code needs dev approval",
     condition := "metadata.stability != \"stable\" || hasApproval(\"dev\")",
     action := Message.stableNeedsDev, priority := 6 },
   { id := "deprecated-warning", name := "Deprecated file warning",
     condition := "!isDeprecated()", action := Message.deprecated, priority := 5 }]

end EditGate
