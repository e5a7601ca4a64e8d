import EditGate.Approval.Basic
import EditGate.Decision
import EditGate.FollowUp
import EditGate.Rule.Basic
import EditGate.Text.Blank

/-!
# Rendering for a terminal

Messages may span lines and be long; a row of a listing shows them on one line, cut at a width.
-/

namespace EditGate.Render

/-- Words separated by single spaces until `width` characters are used; what does not fit is cut
and an ellipsis follows. -/
def fill (width used : Nat) : List (List Char) → List Char
  | [] => []
  | word :: words =>
    let start := if used > 0 then used + 1 else used
    let gap := if used > 0 then [' '] else []
    if start + word.length > width then
      (if width > start then gap else []) ++ word.take (width - start) ++ ['…']
    else gap ++ word ++ fill width (start + word.length) words

/-- A text on one line of at most `width` characters, and an ellipsis if that is not all. -/
def oneLine (text : String) (width : Nat) : String :=
  String.ofList (fill width 0 (Text.words text.toList))

/-! ## Colours -/

inductive Style where
  | green
  | red
  | yellow
  | dimmed
  | boldGreen
  | boldRed
deriving DecidableEq, Repr

/-- The code that switches a style on. -/
def Style.code : Style → String
  | green => "32"
  | red => "31"
  | yellow => "33"
  | dimmed => "2"
  | boldGreen => "1;32"
  | boldRed => "1;31"

/-- A text in a style, if colours are on. -/
def styled (color : Bool) (style : Style) (text : String) : String :=
  if color then "\x1b[" ++ style.code ++ "m" ++ text ++ "\x1b[0m" else text

/-- A text filled up with spaces to a number of characters. -/
def padded (width : Nat) (text : String) : String :=
  text ++ String.ofList (List.replicate (width - text.length) ' ')

def lines (ls : List String) : String := "\n".intercalate ls

/-! ## What is shown -/

def decision (color : Bool) (path : String) (d : Decision) : String :=
  let verdict :=
    if d.allowed then styled color .boldGreen "ALLOWED" else styled color .boldRed "BLOCKED"
  lines ((verdict ++ " " ++ path) ::
    d.reasons.map (fun r => "  " ++ styled color .red "✗" ++ " " ++ oneLine r 120) ++
    d.warnings.map (fun w => "  " ++ styled color .yellow "!" ++ " " ++ oneLine w 120))

def followUps (actions : List FollowUp) : String :=
  if actions.isEmpty then "No follow-up actions."
  else lines (actions.map fun a => "- " ++ a.word)

/-- Who filled a slot and when, as far as it is known. -/
def approver (e : Approval.Entry) : String :=
  match e.approvedBy, e.approvedDate with
  | some who, some time => " by " ++ who ++ " at " ++ time
  | some who, none => " by " ++ who
  | none, _ => ""

def slotLine (color : Bool) (s : Approval.Status) (slot : Approval.Slot) : String :=
  let e := s.entry slot
  let mark := if e.approved then styled color .green "approved" else styled color .dimmed "pending"
  "  " ++ padded 11 slot.dashedName ++ " " ++ mark ++ approver e

def status (color : Bool) (path : String) : Option Approval.Status → String
  | none => path ++ ": no approvals recorded"
  | some s =>
    lines (path :: Approval.Slot.all.map (slotLine color s) ++
      match s.lastInvalidation with
      | some i => ["  last invalidated at " ++ i.time ++ ": " ++ oneLine i.reason 80]
      | none => [])

def rule (color : Bool) (r : Rule) : String :=
  let state := if r.enabled then styled color .green "on " else styled color .dimmed "off"
  let kind := if r.isBlocking then "block" else "warn "
  state ++ " p" ++ padded 3 (toString r.priority) ++ " " ++ kind ++ " " ++ padded 28 r.id ++ " " ++
    oneLine r.condition 60

end EditGate.Render
