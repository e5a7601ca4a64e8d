import EditGate.Approval.Basic
import EditGate.Failure
import EditGate.Json.Text
import EditGate.Metadata.Patch
import EditGate.Rule.Basic

/-!
# Requests

A request is a JSON object with the name of an operation, its parameters, and a name for the reply
to carry; the three may also stand in an array. Other members are held to the grammar of JSON and
otherwise ignored. What a request asks for is decided before anything is done.
-/

namespace EditGate.Rpc

open Approval (Slot)

/-! ## Messages -/

/-- A request as it was received. -/
structure Request where
  operation : String
  params : Json := .null
  id : Option String := none
deriving DecidableEq, Repr

def fieldNames : List String := ["op", "params", "id"]

/-- The containers that may be nested in the parameters; the message itself is one. -/
def paramsDepth : Nat := Json.maxDepth - 1

/-- The members of an object that are fields of a request. None if a name makes no sense or a
field is given twice. -/
def knownMembers? : List (List Json.Piece × Json.Tree) → Option (List (String × Json.Tree))
  | [] => some []
  | (pieces, tree) :: members => do
    let name ← Json.string? pieces
    let known ← knownMembers? members
    if name ∉ fieldNames then some known
    else if (known.lookup name).isSome then none
    else some ((name, tree) :: known)

/-- The fields of a request, by name or by position. -/
def fields? : Json.Tree → Option (List (String × Json.Tree))
  | .object members => knownMembers? members
  | .array items => if items.length ≤ fieldNames.length then some (fieldNames.zip items) else none
  | _ => none

def treeString? : Json.Tree → Option String
  | .string pieces => Json.string? pieces
  | _ => none

/-- What `read` makes of a field; `absent` if it is not given. -/
def field? {α : Type} (fields : List (String × Json.Tree)) (name : String) (absent : Option α)
    (read : Json.Tree → Option α) : Option α :=
  match fields.lookup name with
  | some tree => read tree
  | none => absent

/-- The request that a text writes. -/
def Request.read? (text : List Char) : Option Request := do
  let fields ← fields? (← Json.Tree.read? text)
  return {
    operation := ← field? fields "op" none treeString?
    params := ← field? fields "params" (some .null) (Json.Tree.toJson? paramsDepth)
    id := ← field? fields "id" (some none) (fun t => (treeString? t).map some) }

/-! ## Operations -/

/-- What a request may ask for. -/
inductive Operation where
  | check (path : String)
  | checkMethod (path method : String)
  | followUps (path : String)
  | recordModification (path reason : String)
  | approve (path : String) (slot : Slot) (approver : String)
  | status (path : String)
  | invalidate (path reason : String)
  | metadata (path : String)
  | updateMetadata (path : String) (patch : Metadata.Patch)
  | addRule (rule : Rule)
  | removeRule (id : String)
  | switchRule (id : String) (enabled : Bool)
  | rules
deriving DecidableEq, Repr

/-- The file that an operation is about. -/
def Operation.file? : Operation → Option String
  | check path | checkMethod path _ | followUps path | recordModification path _ => some path
  | approve path _ _ | status path | invalidate path _ => some path
  | metadata path | updateMetadata path _ => some path
  | addRule _ | removeRule _ | switchRule _ _ | rules => none

/-- Why a request has no result. -/
inductive Fault where
  /-- The message is no request. -/
  | unreadable
  | params (m : Misfit)
  | slot (name : String)
  | operation (name : String) (known : List String)
  | failed (f : Failure)
deriving DecidableEq, Repr

namespace Fault

/-- The kind of a fault, as one word for programs. -/
def code : Fault → String
  | unreadable => "invalid_request"
  | params _ => "invalid_params"
  | slot _ => "invalid_params"
  | operation .. => "unknown_op"
  | failed f => f.code

def message : Fault → String
  | unreadable => Json.unreadable
  | params m => m.message
  | slot name => Failure.message (.validation (.unknownSlot name))
  | operation name known =>
    "unknown op '" ++ name ++ "'; expected one of " ++ ", ".intercalate known
  | failed f => f.message

end Fault

/-! ## Parameters -/

/-- The reason that is given when none is. -/
def defaultReason : String := "file modified"

open RecordFit (field)

/-- Parameters that are texts only, named as one record. -/
def textParams (record : String) (names : List String) : RecordFit (List String) where
  name := record
  strict := false
  fields := names.map fun name => field name Fit.string
  build g := names.mapM fun name => g.required name Fit.string

def reasonParams : RecordFit (String × String) where
  name := "ReasonParams"
  strict := false
  fields := [field "path" Fit.string, field "reason" Fit.string]
  build g := do
    return (← g.required "path" Fit.string, ← g.withDefault "reason" defaultReason Fit.string)

def updateParams : RecordFit (String × Metadata.Patch) where
  name := "UpdateParams"
  strict := false
  fields := [field "path" Fit.string, field "updates" Metadata.Patch.ofJson]
  build g := do
    return (← g.required "path" Fit.string, ← g.required "updates" Metadata.Patch.ofJson)

/-- What remains of reading some parameters. -/
def withParams {α : Type} (fit : Fit α) (f : α → Except Fault Operation) (v : Json) :
    Except Fault Operation :=
  match fit v with
  | .ok a => f a
  | .error m => .error (.params m)

def withPath (f : String → Operation) : Json → Except Fault Operation :=
  withParams (textParams "PathParams" ["path"]).read fun ps => .ok (f (ps.getD 0 ""))

def withId (f : String → Operation) : Json → Except Fault Operation :=
  withParams (textParams "IdParams" ["id"]).read fun ps => .ok (f (ps.getD 0 ""))

def withReason (f : String → String → Operation) : Json → Except Fault Operation :=
  withParams reasonParams.read fun p => .ok (f p.1 p.2)

/-- Every operation by name, with what its parameters ask for. -/
def operations : List (String × (Json → Except Fault Operation)) :=
  [("check_before_modification", withPath .check),
   ("check_method_modification",
    withParams (textParams "MethodParams" ["path", "method"]).read fun ps =>
      .ok (.checkMethod (ps.getD 0 "") (ps.getD 1 ""))),
   ("get_modification_actions", withPath .followUps),
   ("record_modification", withReason .recordModification),
   ("set_approval",
    withParams (textParams "ApprovalParams" ["path", "slot", "approver"]).read fun ps =>
      match Slot.ofName? (ps.getD 1 "") with
      | some slot => .ok (.approve (ps.getD 0 "") slot (ps.getD 2 ""))
      | none => .error (.slot (ps.getD 1 ""))),
   ("get_approval_status", withPath .status),
   ("invalidate_approvals", withReason .invalidate),
   ("extract_metadata", withPath .metadata),
   ("update_metadata", withParams updateParams.read fun p => .ok (.updateMetadata p.1 p.2)),
   ("add_rule", withParams Rule.ofJson fun r => .ok (.addRule r)),
   ("remove_rule", withId .removeRule),
   ("enable_rule", withId (.switchRule · true)),
   ("disable_rule", withId (.switchRule · false)),
   ("list_rules", fun _ => .ok .rules)]

/-- What a request asks for. -/
def Request.operation? (r : Request) : Except Fault Operation :=
  match operations.lookup r.operation with
  | some ofParams => ofParams r.params
  | none => .error (.operation r.operation (operations.map Prod.fst))

end EditGate.Rpc
