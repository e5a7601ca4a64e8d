import EditGate.Condition.Basic
import EditGate.Disk.Cause

/-!
# Failures

What stops an operation of the gate: a disk step that failed, a configuration that makes no sense,
or a request that is refused for what it says.
-/

namespace EditGate

/-- Why a stored ledger cannot be used as it is. -/
inductive LedgerFault where
  /-- Not JSON, or not an object, with the reason in words. -/
  | corrupt (reason : String)
  /-- An object in which sections are missing or of the wrong shape. -/
  | incomplete (missing : List String)
deriving DecidableEq, Repr

/-- A fault with its contents quoted. -/
def LedgerFault.quoted : LedgerFault → String
  | corrupt reason => "Corrupt(" ++ Text.quoted reason ++ ")"
  | incomplete missing => "Incomplete([" ++ ", ".intercalate (missing.map Text.quoted) ++ "])"

/-- Why a request is refused. -/
inductive Refusal where
  | unknownSlot (name : String)
  | emptyApprover
  | emptyRuleId
  | duplicateRule (id : String)
  | ledgerUnverified (fault : LedgerFault)
  | nothingToUpdate
deriving DecidableEq, Repr

def Refusal.message : Refusal → String
  | unknownSlot name => Condition.unknownSlot name
  | emptyApprover => "approver identity must not be empty"
  | emptyRuleId => "rule id must not be empty"
  | duplicateRule id => "rule '" ++ id ++ "' already exists"
  | ledgerUnverified fault => "temp ledger failed verification: " ++ fault.quoted
  | nothingToUpdate =>
    "no fields to update; pass at least one of --stability, --edit-permissions, --risk, " ++
      "--review-required, --context"

/-- What stops an operation. -/
inductive Failure where
  | io (cause : Disk.Cause)
  | config (reason : String)
  | validation (refusal : Refusal)
  | notFound (what : String)
deriving DecidableEq, Repr

/-- The kind of a failure, as one word for programs. -/
def Failure.code : Failure → String
  | io _ => "io_error"
  | config _ => "config_error"
  | validation _ => "validation_error"
  | notFound _ => "not_found"

def Failure.message : Failure → String
  | io cause => "I/O error: " ++ cause.message
  | config reason => "Config error: " ++ reason
  | validation refusal => "Validation error: " ++ refusal.message
  | notFound what => "Not found: " ++ what

end EditGate
