import EditGate.Approval.Form
import EditGate.Failure
import EditGate.Json.Text
import EditGate.Notice
import EditGate.Path

/-!
# The ledger document

The ledger is a JSON object. Two sections are mandatory objects; a third maps the keys of files to
their approvals; any other section belongs to someone else and is carried along. Approvals that
cannot be read are carried along as well, exactly as they stand.
-/

namespace EditGate.Ledger

open Approval (Status)

def contextSection : String := "projectContext"

def sessionSection : String := "currentSession"

def statesSection : String := "approvalStates"

/-- What the ledger holds. -/
structure Document where
  projectContext : Json
  currentSession : Json
  approvalStates : Keyed Status
  /-- Entries of the approvals that cannot be read. -/
  unreadableStates : Keyed Json
  /-- The sections of others. -/
  extra : Keyed Json
deriving DecidableEq, Repr

/-! ## Fresh sections -/

/-- The context of a project that has none yet. -/
def freshContext (root : Path) (time : String) : Json :=
  .obj [("createdAt", .str time), ("root", .str (String.ofList root))]

/-- The session of a project that has none yet. -/
def freshSession (event time : String) : Json :=
  .obj [("sessionId", .str event), ("startedAt", .str time)]

/-- The sections to use where a document has none. -/
structure Fresh where
  context : Json
  session : Json
deriving DecidableEq, Repr

/-- The document of a project without a ledger. -/
def Document.fresh (f : Fresh) : Document := ⟨f.context, f.session, [], [], []⟩

/-! ## Writing -/

/-- All entries of the approvals, as they are stored. -/
def Document.storedStates (d : Document) : Keyed Json :=
  d.approvalStates.foldl (fun m b => Keyed.put b.1 b.2.toJson.canonical m) d.unreadableStates

def Document.toJson (d : Document) : Json :=
  .obj (Keyed.put statesSection (.obj d.storedStates)
    (Keyed.put sessionSection d.currentSession
      (Keyed.put contextSection d.projectContext d.extra)))

/-- The text of a document in its file. -/
def Document.body (d : Document) : String := String.ofList d.toJson.pretty

/-! ## Reading -/

/-- Whether a member is an object. -/
def hasObject (obj : Keyed Json) (name : String) : Bool :=
  match Keyed.get? name obj with
  | some v => v.isObject
  | none => false

/-- The sections that are missing or of the wrong shape. The approvals may be absent or null. -/
def missingSections (obj : Keyed Json) : List String :=
  [contextSection, sessionSection].filter (fun name => !hasObject obj name) ++
    match Keyed.get? statesSection obj with
    | some v => if v.isObject || v.isNull then [] else [statesSection]
    | none => []

/-- The object that a stored text writes, if all sections are there. -/
def classify (text : List Char) : Except LedgerFault (Keyed Json) :=
  match Json.read? text with
  | none => .error (.corrupt Json.unreadable)
  | some (.obj members) =>
    let missing := missingSections members
    if missing.isEmpty then .ok members else .error (.incomplete missing)
  | some _ => .error (.corrupt "top-level value is not an object")

/-- The members of the object that a text writes; anything else has none. -/
def objectOf (text : List Char) : Keyed Json :=
  match Json.read? text with
  | some (.obj members) => members
  | _ => []

/-- Stored entries, split into those that can be read and the others, with a notice for each of
those. -/
structure Salvaged where
  usable : Keyed Status
  unreadable : Keyed Json
  notices : List Notice

def unreadableNotice (key : String) (m : Misfit) : Notice :=
  ⟨.warn, "ledger.entry.unreadable", some key,
    "approval state ignored and kept as stored: " ++ m.message⟩

def salvageEntries : List (String × Json) → Salvaged
  | [] => ⟨[], [], []⟩
  | (key, v) :: entries =>
    let rest := salvageEntries entries
    match Status.ofJson v with
    | .ok status => { rest with usable := (key, status) :: rest.usable }
    | .error m =>
      { rest with unreadable := (key, v) :: rest.unreadable
                  notices := unreadableNotice key m :: rest.notices }

/-- The entries of the approvals section; anything but an object has none. -/
def salvage : Option Json → Salvaged
  | some (.obj entries) => salvageEntries entries
  | _ => ⟨[], [], []⟩

/-- A mandatory section, or a fresh one if it is no object. -/
def sectionOr (obj : Keyed Json) (name : String) (otherwise : Json) : Json :=
  match Keyed.get? name obj with
  | some v => if v.isObject then v else otherwise
  | none => otherwise

/-- The document that an object holds, and the notices of reading it. -/
def Document.ofObject (obj : Keyed Json) (f : Fresh) : Document × List Notice :=
  let states := salvage (Keyed.get? statesSection obj)
  ({ projectContext := sectionOr obj contextSection f.context
     currentSession := sectionOr obj sessionSection f.session
     approvalStates := states.usable
     unreadableStates := states.unreadable
     extra := Keyed.erase statesSection
       (Keyed.erase sessionSection (Keyed.erase contextSection obj)) },
   states.notices)

end EditGate.Ledger
