import EditGate.Approval.Basic

/-!
# Fields of a metadata block

The keys that a block may have: nine of the file itself and three of each approval slot.
-/

namespace EditGate

/-- A field of a metadata block. -/
inductive Field where
  | stability
  | editPermissions
  | methodPermissions
  | breakingChangesRisk
  | reviewRequired
  | aiContext
  | lastModified
  | dependencies
  | tests
  | approved (slot : Approval.Slot)
  | approvedBy (slot : Approval.Slot)
  | approvedDate (slot : Approval.Slot)
deriving DecidableEq, Repr

namespace Field

/-- The key under which a field is written. -/
def key : Field → String
  | stability => "stability"
  | editPermissions => "edit-permissions"
  | methodPermissions => "method-permissions"
  | breakingChangesRisk => "breaking-changes-risk"
  | reviewRequired => "review-required"
  | aiContext => "ai-context"
  | lastModified => "last-modified"
  | dependencies => "dependencies"
  | tests => "tests"
  | approved slot => slot.dashedName ++ "-approved"
  | approvedBy slot => slot.dashedName ++ "-approved-by"
  | approvedDate slot => slot.dashedName ++ "-approved-date"

def keyText (f : Field) : List Char := f.key.toList

/-- Every field. -/
def all : List Field :=
  [stability, editPermissions, methodPermissions, breakingChangesRisk, reviewRequired, aiContext,
    lastModified, dependencies, tests] ++
    Approval.Slot.all.flatMap fun s => [approved s, approvedBy s, approvedDate s]

theorem mem_all (f : Field) : f ∈ all := by
  cases f <;> first | decide | (rename_i s; cases s <;> decide)

end Field

end EditGate
