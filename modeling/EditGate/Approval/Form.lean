import EditGate.Approval.Basic
import EditGate.Json.Fit

/-!
# The written form of approvals

An absent name, date or invalidation is left out; every other field is always written.
-/

namespace EditGate.Approval

open RecordFit (field)

/-- A member for a value that may be absent, left out when it is. -/
def optionalMember {α : Type} (name : String) (f : α → Json) : Option α → List (String × Json)
  | none => []
  | some a => [(name, f a)]

def Entry.toJson (e : Entry) : Json :=
  .obj ([("approved", .bool e.approved)] ++ optionalMember "approvedBy" .str e.approvedBy ++
    optionalMember "approvedDate" .str e.approvedDate)

def Entry.fit : RecordFit Entry where
  name := "ApprovalEntry"
  strict := false
  fields := [field "approved" Fit.boolean, field "approvedBy" (Fit.optional Fit.string),
    field "approvedDate" (Fit.optional Fit.string)]
  build g := do
    return {
      approved := ← g.withDefault "approved" false Fit.boolean
      approvedBy := ← g.withDefault "approvedBy" none (Fit.optional Fit.string)
      approvedDate := ← g.withDefault "approvedDate" none (Fit.optional Fit.string) }

def Invalidation.toJson (i : Invalidation) : Json :=
  .obj [("reason", .str i.reason), ("at", .str i.time)]

def Invalidation.fit : RecordFit Invalidation where
  name := "Invalidation"
  strict := false
  fields := [field "reason" Fit.string, field "at" Fit.string]
  build g := do
    return { reason := ← g.required "reason" Fit.string, time := ← g.required "at" Fit.string }

def Status.toJson (s : Status) : Json :=
  .obj ([("dev", s.dev.toJson), ("codeReview", s.codeReview.toJson), ("qa", s.qa.toJson)] ++
    optionalMember "lastInvalidation" Invalidation.toJson s.lastInvalidation)

def Status.fit : RecordFit Status where
  name := "ApprovalStatus"
  strict := false
  fields := [field "dev" Entry.fit.read, field "codeReview" Entry.fit.read,
    field "qa" Entry.fit.read, field "lastInvalidation" (Fit.optional Invalidation.fit.read)]
  build g := do
    return {
      dev := ← g.withDefault "dev" {} Entry.fit.read
      codeReview := ← g.withDefault "codeReview" {} Entry.fit.read
      qa := ← g.withDefault "qa" {} Entry.fit.read
      lastInvalidation :=
        ← g.withDefault "lastInvalidation" none (Fit.optional Invalidation.fit.read) }

/-- The status that a value writes. -/
def Status.ofJson : Fit Status := Status.fit.read

end EditGate.Approval
