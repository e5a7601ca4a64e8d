/-!
# Approvals

A file has three approval slots, each filled by one person or empty. Invalidation empties all
three and remembers why.
-/

namespace EditGate

namespace Approval

/-- The three independent approvals of a file. -/
inductive Slot where
  | dev
  | codeReview
  | qa
deriving DecidableEq, Repr

namespace Slot

def all : List Slot := [dev, codeReview, qa]

/-- The name in the ledger and in conditions. -/
def name : Slot → String
  | dev => "dev"
  | codeReview => "codeReview"
  | qa => "qa"

/-- The name in metadata blocks and on the command line. -/
def dashedName : Slot → String
  | dev => "dev"
  | codeReview => "code-review"
  | qa => "qa"

/-- The slot of a name in any of its spellings. -/
def ofName? (s : String) : Option Slot :=
  if s = "dev" then some dev
  else if s = "codeReview" ∨ s = "code-review" ∨ s = "code_review" then some codeReview
  else if s = "qa" then some qa
  else none

theorem ofName?_name (s : Slot) : ofName? s.name = some s := by cases s <;> decide

theorem ofName?_dashedName (s : Slot) : ofName? s.dashedName = some s := by cases s <;> decide

theorem mem_all (s : Slot) : s ∈ all := by cases s <;> decide

end Slot

/-- The state of one slot. -/
structure Entry where
  approved : Bool := false
  approvedBy : Option String := none
  approvedDate : Option String := none
deriving DecidableEq, Repr, Inhabited

/-- Why and when the approvals of a file were last taken back. -/
structure Invalidation where
  reason : String
  time : String
deriving DecidableEq, Repr

/-- The approvals of one file. An empty slot is not approved. -/
structure Status where
  dev : Entry := {}
  codeReview : Entry := {}
  qa : Entry := {}
  lastInvalidation : Option Invalidation := none
deriving DecidableEq, Repr, Inhabited

namespace Status

def entry (s : Status) : Slot → Entry
  | .dev => s.dev
  | .codeReview => s.codeReview
  | .qa => s.qa

/-- Fills one slot. -/
def setEntry (s : Status) (slot : Slot) (e : Entry) : Status :=
  match slot with
  | .dev => { s with dev := e }
  | .codeReview => { s with codeReview := e }
  | .qa => { s with qa := e }

/-- Records that `approver` approved the slot at `time`. -/
def approve (s : Status) (slot : Slot) (approver time : String) : Status :=
  s.setEntry slot { approved := true, approvedBy := some approver, approvedDate := some time }

def isApproved (s : Status) (slot : Slot) : Bool := (s.entry slot).approved

/-- Empties all three slots. -/
def invalidate (reason time : String) : Status :=
  { lastInvalidation := some ⟨reason, time⟩ }

@[simp] theorem entry_setEntry (s : Status) (slot slot' : Slot) (e : Entry) :
    (s.setEntry slot e).entry slot' = if slot = slot' then e else s.entry slot' := by
  cases slot <;> cases slot' <;> rfl

@[simp] theorem lastInvalidation_setEntry (s : Status) (slot : Slot) (e : Entry) :
    (s.setEntry slot e).lastInvalidation = s.lastInvalidation := by cases slot <;> rfl

end Status

/-- Whether a slot is approved; without a status none is. -/
def isApproved (status : Option Status) (slot : Slot) : Bool :=
  match status with
  | some s => s.isApproved slot
  | none => false

end Approval

end EditGate
