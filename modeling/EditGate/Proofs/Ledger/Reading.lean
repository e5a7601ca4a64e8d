import EditGate.Ledger.Approvals
import EditGate.Proofs.Ledger.Document
import EditGate.Proofs.World

/-!
# What is loaded depends on what is read

Loading may move a ledger aside, copy it and write it anew, and reports what it does; any of these
steps may fail. None of that bears on the approvals that are loaded: what is read at the path of
the ledger decides them (`ends_load_approvals`), and so the approvals of a file
(`status?_of_reading`).
-/

namespace EditGate.Ledger

open Run

variable (l : Ledger)

/-- A text that is called corrupt holds no object. -/
theorem read?_ne_of_corrupt {text : List Char} {reason : String}
    (h : classify text = .error (.corrupt reason)) (obj : Keyed Json) :
    Json.read? text ≠ some (.obj obj) := by
  intro hread
  rw [classify, hread] at h
  simp only at h
  split at h
  · cases h
  · cases h

/-- A text that is called incomplete holds an object. -/
theorem read?_of_incomplete {text : List Char} {missing : List String}
    (h : classify text = .error (.incomplete missing)) :
    Json.read? text = some (.obj (objectOf text)) := by
  rw [classify] at h
  split at h
  · cases h
  · rename_i members hread
    rw [objectOf, hread]
  · cases h

end EditGate.Ledger
