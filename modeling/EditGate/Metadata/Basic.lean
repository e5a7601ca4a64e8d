import EditGate.Approval.Form

/-!
# Metadata of a file

What a metadata block declares about its file. Each enumeration has one word per value; a word is
read in either case.
-/

namespace EditGate

/-- How settled the code of a file is. -/
inductive Stability where
  | stable
  | experimental
  | deprecated
deriving DecidableEq, Repr

/-- Which edits a file admits. -/
inductive EditPermission where
  | full
  | addOnly
  | readOnly
  | methodSpecific
deriving DecidableEq, Repr

/-- Which edits a single method admits. -/
inductive MethodPermission where
  | readOnly
  | allow
  | restricted
deriving DecidableEq, Repr

/-- How much a change of the file may break. -/
inductive RiskLevel where
  | high
  | medium
  | low
deriving DecidableEq, Repr

/-- The value whose word is `s` with its ASCII letters in lower case. -/
def ofWord? {α : Type} (word : α → String) (all : List α) (s : String) : Option α :=
  all.find? fun a => word a = s.map Char.toLower

namespace Stability

def word : Stability → String
  | stable => "stable"
  | experimental => "experimental"
  | deprecated => "deprecated"

def all : List Stability := [stable, experimental, deprecated]

end Stability

namespace EditPermission

def word : EditPermission → String
  | full => "full"
  | addOnly => "add-only"
  | readOnly => "read-only"
  | methodSpecific => "method-specific"

def all : List EditPermission := [full, addOnly, readOnly, methodSpecific]

end EditPermission

namespace MethodPermission

def word : MethodPermission → String
  | readOnly => "read-only"
  | allow => "allow"
  | restricted => "restricted"

def all : List MethodPermission := [readOnly, allow, restricted]

end MethodPermission

namespace RiskLevel

def word : RiskLevel → String
  | high => "high"
  | medium => "medium"
  | low => "low"

def all : List RiskLevel := [high, medium, low]

end RiskLevel

/-- An enumeration that a metadata field may hold. -/
class Enumerated (α : Type) where
  word : α → String
  all : List α
  /-- What a value of it is called. -/
  noun : String

instance : Enumerated Stability := ⟨Stability.word, Stability.all, "stability"⟩
instance : Enumerated EditPermission := ⟨EditPermission.word, EditPermission.all, "edit permission"⟩
instance : Enumerated RiskLevel := ⟨RiskLevel.word, RiskLevel.all, "risk level"⟩
instance : Enumerated MethodPermission :=
  ⟨MethodPermission.word, MethodPermission.all, "method permission"⟩

namespace Enumerated

variable {α : Type} [Enumerated α]

/-- The value of a word in either case. -/
def ofWord? (s : String) : Option α := EditGate.ofWord? word all s

/-- What is said of a word that names no value. -/
def unknown (α : Type) [Enumerated α] (s : String) : String :=
  "unknown " ++ noun α ++ " '" ++ s.map Char.toLower ++ "'"

/-- The words with their values. -/
def variants : List (String × α) := all.map fun a => (word a, a)

def fit : Fit α := Fit.choice variants

def toJson (a : α) : Json := .str (word a)

end Enumerated

/-- What a metadata block declares. -/
structure Metadata where
  stability : Option Stability := none
  editPermissions : Option EditPermission := none
  methodPermissions : Option (Keyed MethodPermission) := none
  breakingChangesRisk : Option RiskLevel := none
  reviewRequired : Bool := false
  aiContext : Option String := none
  lastModified : Option String := none
  dependencies : Option (List String) := none
  tests : Option (List String) := none
  approvals : Option Approval.Status := none
deriving DecidableEq, Repr, Inhabited

namespace Metadata

def isReadOnly (m : Metadata) : Bool := m.editPermissions = some .readOnly

def isHighRisk (m : Metadata) : Bool := m.breakingChangesRisk = some .high

def isDeprecated (m : Metadata) : Bool := m.stability = some .deprecated

/-- Whether the block names at least one test. -/
def hasTests (m : Metadata) : Bool :=
  match m.tests with
  | some tests => !tests.isEmpty
  | none => false

/-- The permission declared for a method. -/
def methodPermission? (m : Metadata) (method : String) : Option MethodPermission :=
  m.methodPermissions.bind (Keyed.get? method)

/-! ## Written form -/

def permissionsToJson (permissions : Keyed MethodPermission) : Json :=
  .obj (Keyed.mapValues Enumerated.toJson permissions)

def toJson (m : Metadata) : Json :=
  .obj [("stability", .ofOption Enumerated.toJson m.stability),
    ("editPermissions", .ofOption Enumerated.toJson m.editPermissions),
    ("methodPermissions", .ofOption permissionsToJson m.methodPermissions),
    ("breakingChangesRisk", .ofOption Enumerated.toJson m.breakingChangesRisk),
    ("reviewRequired", .bool m.reviewRequired),
    ("aiContext", .ofOption .str m.aiContext),
    ("lastModified", .ofOption .str m.lastModified),
    ("dependencies", .ofOption .ofStrings m.dependencies),
    ("tests", .ofOption .ofStrings m.tests),
    ("approvals", .ofOption Approval.Status.toJson m.approvals)]

open RecordFit (field) in
def fit : RecordFit Metadata where
  name := "AiMetadata"
  strict := false
  fields := [field "stability" (Fit.optional (Enumerated.fit (α := Stability))),
    field "editPermissions" (Fit.optional (Enumerated.fit (α := EditPermission))),
    field "methodPermissions" (Fit.optional (Fit.keyed (Enumerated.fit (α := MethodPermission)))),
    field "breakingChangesRisk" (Fit.optional (Enumerated.fit (α := RiskLevel))),
    field "reviewRequired" Fit.boolean,
    field "aiContext" (Fit.optional Fit.string),
    field "lastModified" (Fit.optional Fit.string),
    field "dependencies" (Fit.optional (Fit.list Fit.string)),
    field "tests" (Fit.optional (Fit.list Fit.string)),
    field "approvals" (Fit.optional Approval.Status.ofJson)]
  build g := do
    return {
      stability := ← g.orAbsent "stability" Enumerated.fit
      editPermissions := ← g.orAbsent "editPermissions" Enumerated.fit
      methodPermissions := ← g.orAbsent "methodPermissions" (Fit.keyed Enumerated.fit)
      breakingChangesRisk := ← g.orAbsent "breakingChangesRisk" Enumerated.fit
      reviewRequired := ← g.required "reviewRequired" Fit.boolean
      aiContext := ← g.orAbsent "aiContext" Fit.string
      lastModified := ← g.orAbsent "lastModified" Fit.string
      dependencies := ← g.orAbsent "dependencies" (Fit.list Fit.string)
      tests := ← g.orAbsent "tests" (Fit.list Fit.string)
      approvals := ← g.orAbsent "approvals" Approval.Status.ofJson }

/-- The metadata that a value writes. -/
def ofJson : Fit Metadata := fit.read

end Metadata

end EditGate
