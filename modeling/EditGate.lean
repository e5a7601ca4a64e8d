import EditGate.Main
import EditGate.Proofs.Metadata.Reapply
import EditGate.Proofs.Metadata.Style
import EditGate.Proofs.Json.Numbers
import EditGate.Proofs.Json.Strings
import EditGate.Proofs.Ledger.Refines
import EditGate.Proofs.Gate.Operations
import EditGate.Proofs.Gate.Safety
import EditGate.Proofs.Gate.Noninterference
import EditGate.Proofs.Condition.Recognize
import EditGate.Proofs.Gate.Spelling
import EditGate.Proofs.Gate.KeyedFile
import EditGate.Proofs.Rpc.Session
import EditGate.Proofs.Ledger.Inverse
import EditGate.Proofs.Ledger.Atomic
import EditGate.Proofs.Ledger.Repair
import EditGate.Proofs.Ledger.OnlyCopy
import EditGate.Proofs.Rpc.BrokenLine
import EditGate.Proofs.Rpc.Rejected
import EditGate.Proofs.Rpc.Receipts
import EditGate.Proofs.Gate.WriteOnly
import EditGate.Proofs.Gate.Recorded
import EditGate.Proofs.Gate.Repetition
import EditGate.Proofs.Rule.Granting
import EditGate.Proofs.Rule.Kinded
import EditGate.Proofs.Condition.Descent
import EditGate.Proofs.Rule.Administration
import EditGate.Proofs.Rule.Builtin
import EditGate.Proofs.Render
import EditGate.Proofs.Metadata.Lists
import EditGate.Proofs.Metadata.MethodNames
import EditGate.Proofs.Metadata.Context
import EditGate.Proofs.Metadata.Cells
import EditGate.Proofs.Metadata.Sliceable
