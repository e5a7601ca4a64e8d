import EditGate.Json.Fit

/-!
# Decisions

Whether a file may be modified, why not, and what to mind. A decision that is finished or merged
allows the modification exactly when it has no reason against it.
-/

namespace EditGate

/-- The answer to whether a file may be modified. -/
structure Decision where
  allowed : Bool := true
  reasons : List String := []
  warnings : List String := []
deriving DecidableEq, Repr

/-- A list with each string kept where it occurs first. -/
def firstOccurrences : List String → List String
  | [] => []
  | m :: ms => m :: (firstOccurrences ms).filter (· ≠ m)

namespace Decision

/-- The decision without a finding. -/
def allow : Decision := {}

/-- The decision on a file without metadata. -/
def noMetadata : Decision := { warnings := ["No metadata found"] }

/-- The decision of some findings; with `dedupe` each message is kept once in each list. -/
def ofFindings (dedupe : Bool) (reasons warnings : List String) : Decision :=
  let reasons := if dedupe then firstOccurrences reasons else reasons
  let warnings := if dedupe then firstOccurrences warnings else warnings
  { allowed := reasons.isEmpty, reasons, warnings }

/-- The findings of two decisions. -/
def merge (a b : Decision) : Decision :=
  let reasons := a.reasons ++ b.reasons
  { allowed := reasons.isEmpty, reasons, warnings := a.warnings ++ b.warnings }

def toJson (d : Decision) : Json :=
  .obj [("allowed", .bool d.allowed), ("reasons", .ofStrings d.reasons),
    ("warnings", .ofStrings d.warnings)]

open RecordFit (field) in
def fit : RecordFit Decision where
  name := "Decision"
  strict := false
  fields := [field "allowed" Fit.boolean, field "reasons" (Fit.list Fit.string),
    field "warnings" (Fit.list Fit.string)]
  build g := do
    return {
      allowed := ← g.required "allowed" Fit.boolean
      reasons := ← g.required "reasons" (Fit.list Fit.string)
      warnings := ← g.required "warnings" (Fit.list Fit.string) }

def ofJson : Fit Decision := fit.read

end Decision

theorem mem_firstOccurrences {m : String} {ms : List String} :
    m ∈ firstOccurrences ms ↔ m ∈ ms := by
  induction ms with
  | nil => simp [firstOccurrences]
  | cons a ms ih =>
    by_cases h : m = a
    · simp [firstOccurrences, h]
    · simp [firstOccurrences, ih, h]

theorem nodup_firstOccurrences (ms : List String) : (firstOccurrences ms).Nodup := by
  induction ms with
  | nil => simp [firstOccurrences]
  | cons a ms ih =>
    simp only [firstOccurrences, List.nodup_cons]
    exact ⟨by simp, List.Pairwise.filter _ ih⟩

end EditGate
