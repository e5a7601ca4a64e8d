import EditGate.Ledger.Store
import EditGate.Text.Blank

/-!
# Approvals in the ledger

The ledger maps the key of a file to its approvals. Granting an approval fills one slot, and makes
an entry if there is none; taking approvals back empties all slots of an entry that is there.
-/

namespace EditGate.Ledger

open Approval (Slot Status)

namespace Document

def status? (d : Document) (key : String) : Option Status := Keyed.get? key d.approvalStates

/-- The document with the approvals of one file replaced. -/
def setStatus (d : Document) (key : String) (s : Status) : Document :=
  { d with approvalStates := Keyed.put key s d.approvalStates }

/-- The approvals of a file once a slot is granted. -/
def granted (d : Document) (key : String) (slot : Slot) (approver time : String) : Status :=
  ((d.status? key).getD {}).approve slot approver time

end Document

variable (l : Ledger)

def key (path : String) : String := l.project.key path

/-- The approvals of a file; none if there never were any. -/
def status? (path : String) : Run (Option Status) := return (← l.load).status? (l.key path)

/-- The approvals of every file that has any, by key. -/
def statuses : Run (Keyed Status) := return (← l.load).approvalStates

/-- Grants an approval by someone with a name. -/
def approve (path : String) (slot : Slot) (approver : String) : Trial Status := do
  let who := Text.trimString approver
  if who.isEmpty then Trial.refuse .emptyApprover
  else
    let key := l.key path
    let d ← l.load
    let status := d.granted key slot who (← Run.timeStamp)
    l.save (d.setStatus key status)
    l.sink.record ⟨.info, "approval.set", some key,
      slot.name ++ " approval granted by " ++ who⟩
    return status

/-- Takes back the approvals of a file, if it has an entry. -/
def invalidate (path reason : String) : Trial Unit := do
  let key := l.key path
  let d ← l.load
  match d.status? key with
  | none => return
  | some _ => do
    l.save (d.setStatus key (.invalidate reason (← Run.timeStamp)))
    l.sink.record ⟨.info, "approval.invalidated", some key, "approvals invalidated: " ++ reason⟩

end EditGate.Ledger
