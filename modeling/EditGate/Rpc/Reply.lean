import EditGate.Json.Digest
import EditGate.Rpc.Request

/-!
# Replies

A reply carries a result or a fault, never both, and a receipt: when the request was answered, the
digests of what went in and came out, and the files that were written.
-/

namespace EditGate.Rpc

/-- What happened on a request. -/
structure Receipt where
  operation : String
  time : String
  inputsDigest : String
  outputsDigest : String
  /-- The files that were written. -/
  touched : List String := []
deriving DecidableEq, Repr

def Receipt.toJson (r : Receipt) : Json :=
  .obj ([("op", .str r.operation), ("timestamp", .str r.time),
    ("inputs_hash", .str r.inputsDigest), ("outputs_hash", .str r.outputsDigest)] ++
    if r.touched.isEmpty then [] else [("touched_paths", .ofStrings r.touched)])

structure Reply where
  id : String
  receipt : Receipt
  outcome : Except Fault Json
deriving Repr

namespace Reply

def succeeded (r : Reply) : Bool := r.outcome.isOk

def faultJson (f : Fault) : Json := .obj [("code", .str f.code), ("message", .str f.message)]

def toJson (r : Reply) : Json :=
  .obj ([("id", .str r.id), ("success", .bool r.succeeded), ("receipt", r.receipt.toJson)] ++
    match r.outcome with
    | .ok v => [("result", v.canonical)]
    | .error f => [("error", faultJson f)])

/-- The line that a reply is sent as, without its end. -/
def line (r : Reply) : List Char := r.toJson.print

/-- The reply to a request of that name, with what came of it. -/
def of (id : String) (request : Request) (time : String) (outcome : Except Fault Json)
    (touched : List String) : Reply where
  id := id
  receipt := {
    operation := request.operation
    time := time
    inputsDigest := request.params.digest
    outputsDigest := (outcome.toOption.getD .null).digest
    touched := touched }
  outcome := outcome

/-- The reply to a message that is no request. -/
def toUnreadable (time : String) : Reply :=
  .of "" { operation := "" } time (.error .unreadable) []

end Reply

end EditGate.Rpc
