import EditGate.Metadata.Basic

/-!
# What follows a modification

The actions that are due after a file was modified.
-/

namespace EditGate

inductive FollowUp where
  | invalidateApprovals
  | updateLastModified
  | addToChangelog
  | requireImmediateReview
  | runTests
deriving DecidableEq, Repr

namespace FollowUp

def word : FollowUp → String
  | invalidateApprovals => "invalidate_approvals"
  | updateLastModified => "update_last_modified"
  | addToChangelog => "add_to_changelog"
  | requireImmediateReview => "require_immediate_review"
  | runTests => "run_tests"

def all : List FollowUp :=
  [invalidateApprovals, updateLastModified, addToChangelog, requireImmediateReview, runTests]

def toJson (a : FollowUp) : Json := .str a.word

def ofJson : Fit FollowUp := Fit.choice (all.map fun a => (a.word, a))

/-- Whether the gate carries the action out itself. -/
def isOwn : FollowUp → Bool
  | invalidateApprovals => true
  | updateLastModified => true
  | _ => false

/-- The actions due after a file with that metadata was modified. -/
def after (metadata : Option Metadata) : List FollowUp :=
  [invalidateApprovals, updateLastModified, addToChangelog] ++
    match metadata with
    | none => []
    | some m =>
      (if m.isHighRisk then [requireImmediateReview] else []) ++
        if m.hasTests then [runTests] else []

end FollowUp

end EditGate
