import EditGate.Proofs.Ledger.Grants
import EditGate.Rpc.Session

/-!
# What the gate does to its ledger

Every operation of the gate keeps a tended ledger tended. Looking at a file and judging it adds no
grant and takes none back, and neither does writing a file that is not the ledger; after a recorded
modification nothing is granted for the key of the file.
-/

namespace EditGate.Gate

open Approval (Slot)
open Run World
open World (Grown)

variable {g : Gate} {w w' : World} {P : Place} {granted : String → Slot → Prop}

/-! ## Looking -/

/-- The file of a path is not the ledger. -/
def IsElsewhere (g : Gate) (w : World) (path : String) : Prop :=
  w.placeOf (g.locate path) ≠ g.ledger.place w

theorem IsElsewhere.later {path : String} (h : g.IsElsewhere w path)
    (hlater : Ledger.Later w w') : g.IsElsewhere w' path := by
  rw [IsElsewhere, hlater.place, placeOf, hlater.workingDir]
  exact h

/-- The approvals are taken back first, and once. -/
theorem exists_followUps_eq_cons (m : Option Metadata) :
    ∃ rest, FollowUp.after m = .invalidateApprovals :: rest ∧ .invalidateApprovals ∉ rest := by
  refine ⟨_, rfl, ?_⟩
  cases m with
  | none => decide
  | some m =>
    simp only
    split <;> split <;> decide

/-- What an action leaves: nothing is granted for the key if it takes approvals back and
succeeds. -/
def Leaves (g : Gate) (w : World) (granted : String → Slot → Prop) (path : String)
    (takesBack : Prop) (w' : World) : Prop :=
  Ledger.Later w w' ∧
    g.ledger.Tended w' fun k slot => (takesBack → k ≠ g.key path) ∧ granted k slot

end EditGate.Gate
