import EditGate.Gate
import EditGate.Rpc.Reply

/-!
# Sessions

A session answers one message a line, in order, with one reply each. Changes of the rules last
until its end; a line that is no text ends it.
-/

namespace EditGate.Rpc

/-! ## One request -/

/-- What an operation yields: a value, the files that were written, and the gate from then on. -/
structure Answer where
  value : Json
  touched : List String := []
  gate : Gate

def ledgerText (g : Gate) : String := String.ofList g.ledgerPath

/-- Carries out what a request asks for. -/
def perform (g : Gate) : Operation → Trial Answer
  | .check path => return { value := (← g.check path).toJson, gate := g }
  | .checkMethod path method =>
    return { value := (← g.checkMethod path method).toJson, gate := g }
  | .followUps path =>
    return { value := .arr ((← g.followUps path).map FollowUp.toJson), gate := g }
  | .recordModification path reason => do
    let remaining ← g.recordModification path reason
    return {
      value := .obj [("remaining_actions", .arr (remaining.map FollowUp.toJson))]
      touched := [path, ledgerText g]
      gate := g }
  | .approve path slot approver => do
    let status ← g.approve path slot approver
    return { value := status.toJson, touched := [ledgerText g], gate := g }
  | .status path =>
    return { value := .ofOption Approval.Status.toJson (← g.status? path), gate := g }
  | .invalidate path reason => do
    g.invalidate path reason
    return { value := .null, touched := [ledgerText g], gate := g }
  | .metadata path =>
    return { value := .ofOption Metadata.toJson (← g.metadata? path), gate := g }
  | .updateMetadata path patch => do
    g.updateMetadata path patch
    return { value := .null, touched := [path], gate := g }
  | .addRule r => do
    let g ← ExceptT.mk (pure (g.addRule r))
    return { value := .null, gate := g }
  | .removeRule id =>
    return { value := .obj [("removed", .bool (g.rule? id).isSome)], gate := g.removeRule id }
  | .switchRule id enabled =>
    return {
      value := .obj [("found", .bool (g.rule? id).isSome)]
      gate := g.setRuleEnabled id enabled }
  | .rules => return { value := .arr (g.rules.map Rule.toJson), gate := g }

/-- Carries out a request, if it makes sense. -/
def attempt (g : Gate) (r : Request) : Run (Except Fault Answer) := do
  match r.operation? with
  | .error fault => return .error fault
  | .ok operation => return (← (perform g operation).run).mapError .failed

/-- The name that a reply carries. -/
def replyId (r : Request) : Run String :=
  match r.id with
  | some id => return id
  | none => Run.newEvent

/-- Answers a request. After a fault the gate is as it was. -/
def handle (g : Gate) (r : Request) : Run (Reply × Gate) := do
  let id ← replyId r
  match ← attempt g r with
  | .ok a => return (.of id r (← Run.timeStamp) (.ok a.value) a.touched, a.gate)
  | .error fault => return (.of id r (← Run.timeStamp) (.error fault) [], g)

/-- Answers a line that is not blank. -/
def handleLine (g : Gate) (line : List Char) : Run (Reply × Gate) := do
  match Request.read? line with
  | some r => handle g r
  | none => return (.toUnreadable (← Run.timeStamp), g)

/-! ## Many lines -/

/-- The lines of some bytes, without the line feeds that end them. -/
def lines : List UInt8 → List (List UInt8)
  | [] => []
  | b :: bs =>
    if b = 0x0a then [] :: lines bs
    else
      match lines bs with
      | [] => [[b]]
      | l :: ls => (b :: l) :: ls

/-- The text of a line without the blanks around it. -/
def lineText? (line : List UInt8) : Option (List Char) :=
  (String.fromUTF8? ⟨line.toArray⟩).map fun s => Text.trim s.toList

/-- How a session went. -/
structure Session where
  replies : List Reply
  gate : Gate
  ending : Except Failure Unit

/-- Answers lines in order. Blank ones have no reply. -/
def serveLines (g : Gate) : List (List UInt8) → Run Session
  | [] => return ⟨[], g, .ok ()⟩
  | line :: ls =>
    match lineText? line with
    | none => return ⟨[], g, .error (.io .notText)⟩
    | some [] => serveLines g ls
    | some text => do
      let (reply, g) ← handleLine g text
      let rest ← serveLines g ls
      return { rest with replies := reply :: rest.replies }

/-- Answers the lines of some bytes. -/
def serve (g : Gate) (input : List UInt8) : Run Session := serveLines g (lines input)

end EditGate.Rpc
