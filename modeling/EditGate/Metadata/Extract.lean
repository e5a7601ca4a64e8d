import EditGate.Json.Text
import EditGate.Metadata.Basic
import EditGate.Metadata.Cell
import EditGate.Notice

/-!
# Reading metadata

A block is read field by field. A field that makes no sense is left out, with a notice for those
whose value is constrained, and every other field is read all the same. Only a text without a
block has no metadata.
-/

namespace EditGate

namespace Metadata

/-! ## Values of fields -/

def isQuote (c : Char) : Bool := c == '"' || c == '\x27' || c == '\x60'

/-- A value without blanks and quotes around it. -/
def unquote (raw : List Char) : List Char :=
  Text.trim (Text.trimMatches isQuote (Text.trim raw))

/-- The items of a list in brackets; empty ones are skipped. -/
def readList? : List Char → Option (List String)
  | '[' :: s =>
    (Text.cutAt? [']'] s).map fun (inner, _) =>
      (((Text.splitOn ',' inner).map unquote).filter (!·.isEmpty)).map String.ofList
  | _ => none

/-- Why the value of the method permissions is no map. -/
inductive PermissionsFault where
  | notAnObject
  | notReadable
deriving DecidableEq, Repr

def PermissionsFault.message : PermissionsFault → String
  | notAnObject => "expected a single-line \x7b...\x7d object"
  | notReadable => Json.unreadable

/-- The permission that a tree writes: its word, or an object with the word as its one member and
null as the value. -/
def permissionOfTree? : Json.Tree → Option MethodPermission
  | .string pieces => do (Enumerated.variants (α := MethodPermission)).lookup (← Json.string? pieces)
  | .object [(pieces, .null)] => do
    (Enumerated.variants (α := MethodPermission)).lookup (← Json.string? pieces)
  | _ => none

/-- The bindings of an object of permissions, each of which has to make sense. -/
def permissionsOfMembers? : List (List Json.Piece × Json.Tree) →
    Option (List (String × MethodPermission))
  | [] => some []
  | (name, tree) :: ms => do
    return (← Json.string? name, ← permissionOfTree? tree) :: (← permissionsOfMembers? ms)

/-- The map that an object in braces writes, in which single quotes are as good as double ones. -/
def readPermissions (raw : List Char) : Except PermissionsFault (Keyed MethodPermission) :=
  if raw.head? = some '\x7b' ∧ raw.getLast? = some '\x7d' then
    match Json.Tree.read? (Text.replaceChar '\x27' '"' raw) with
    | some (.object members) =>
      match permissionsOfMembers? members with
      | some bindings => .ok (Keyed.ofList bindings)
      | none => .error .notReadable
    | _ => .error .notReadable
  else .error .notAnObject

/-! ## Fields of a block -/

/-- The value of a plain field. -/
def scalar? (b : Block) (f : Field) : Option String :=
  (b.raw? f).map fun raw => String.ofList (unquote raw)

/-- The value of an enumerated field, or a notice that its word is unknown. -/
def enumerated (α : Type) [Enumerated α] (b : Block) (subject : Option String) (f : Field) :
    Option α × List Notice :=
  match scalar? b f with
  | none => (none, [])
  | some s =>
    match Enumerated.ofWord? s with
    | some a => (some a, [])
    | none =>
      (none, [⟨.warn, "metadata.field.invalid", subject,
        "ignoring " ++ f.key ++ ": " ++ Enumerated.unknown α s⟩])

/-- The method permissions, or a notice that they are malformed. -/
def permissions (b : Block) (subject : Option String) :
    Option (Keyed MethodPermission) × List Notice :=
  match b.raw? .methodPermissions with
  | none => (none, [])
  | some raw =>
    match readPermissions raw with
    | .ok map => (some map, [])
    | .error fault =>
      (none, [⟨.warn, "metadata.method_permissions.malformed", subject,
        "ignoring " ++ Field.key .methodPermissions ++ " value " ++
          Text.quoted (String.ofList raw) ++ ": " ++ fault.message⟩])

/-- The entry that a block claims for a slot. -/
def claimedEntry (b : Block) (slot : Approval.Slot) : Approval.Entry where
  approved := scalar? b (.approved slot) = some "true"
  approvedBy := scalar? b (.approvedBy slot)
  approvedDate := scalar? b (.approvedDate slot)

/-- Whether a block has any field of a slot. -/
def claims (b : Block) (slot : Approval.Slot) : Bool :=
  (b.raw? (.approved slot)).isSome || (b.raw? (.approvedBy slot)).isSome ||
    (b.raw? (.approvedDate slot)).isSome

/-- The approvals that a block claims, if it has a field of any. -/
def claimedApprovals (b : Block) : Option Approval.Status :=
  if Approval.Slot.all.any (claims b) then
    some {
      dev := claimedEntry b .dev
      codeReview := claimedEntry b .codeReview
      qa := claimedEntry b .qa }
  else none

/-- The metadata of a block and the notices of reading it. -/
def ofBlock (b : Block) (subject : Option String) : Metadata × List Notice :=
  let (stability, n₁) := enumerated Stability b subject .stability
  let (editPermissions, n₂) := enumerated EditPermission b subject .editPermissions
  let (breakingChangesRisk, n₃) := enumerated RiskLevel b subject .breakingChangesRisk
  let (methodPermissions, n₄) := permissions b subject
  ({ stability, editPermissions, methodPermissions, breakingChangesRisk,
     reviewRequired := scalar? b .reviewRequired = some "true",
     aiContext := scalar? b .aiContext,
     lastModified := scalar? b .lastModified,
     dependencies := (b.raw? .dependencies).bind readList?,
     tests := (b.raw? .tests).bind readList?,
     approvals := claimedApprovals b },
   n₁ ++ n₂ ++ n₃ ++ n₄)

/-- The metadata of a text and the notices of reading it; `subject` names the text there. -/
def extractWith (text : List Char) (subject : Option String) : Option Metadata × List Notice :=
  match Block.locate? text with
  | some b =>
    let (m, notices) := ofBlock b subject
    (some m, notices)
  | none => (none, [])

/-- The metadata of a text. -/
def extract (text : List Char) : Option Metadata := (extractWith text none).1

end Metadata

end EditGate
