import EditGate.Condition.Basic
import EditGate.Metadata.Basic

/-!
# Evaluating conditions

A condition sees the metadata of a file, its approvals and its path, and nothing else. Approvals
that the metadata block itself claims are not among what it sees.
-/

namespace EditGate.Condition

open Approval (Slot Status)

/-- Everything that a condition can see. -/
structure Context where
  metadata : Metadata
  approval : Option Status
  path : String

/-! ## Names -/

/-- A field of an approval entry. -/
inductive EntryField where
  | approved
  | approvedBy
  | approvedDate
deriving DecidableEq, Repr

/-- What a path can name. -/
inductive Reference where
  | filePath
  | stability
  | editPermissions
  | breakingChangesRisk
  | reviewRequired
  | aiContext
  | lastModified
  | methodPermission (method : String)
  | approval (slot : Slot) (field : EntryField)
deriving DecidableEq, Repr

def EntryField.ofName? (name : String) : Option EntryField :=
  if name = "approved" then some approved
  else if name = "approvedBy" then some approvedBy
  else if name = "approvedDate" then some approvedDate
  else none

/-- The plain fields of the metadata by name. -/
def Reference.ofMetadataField? (name : String) : Option Reference :=
  if name = "stability" then some stability
  else if name = "editPermissions" then some editPermissions
  else if name = "breakingChangesRisk" then some breakingChangesRisk
  else if name = "reviewRequired" then some reviewRequired
  else if name = "aiContext" then some aiContext
  else if name = "lastModified" then some lastModified
  else none

/-- What the segments of a path name. -/
def Reference.ofSegments? : List String → Option Reference
  | [a] => if a = "filePath" then some filePath else none
  | [a, b] => if a = "metadata" then ofMetadataField? b else none
  | [a, b, c] =>
    if a = "metadata" then
      if b = "methodPermissions" then some (methodPermission c) else none
    else if a = "approval" then do
      return approval (← Slot.ofName? b) (← EntryField.ofName? c)
    else none
  | _ => none

/-- A text, or null when there is none. -/
def Value.ofText? : Option String → Value
  | some s => .text s
  | none => .null

/-- The word of an enumerated field, or null when it is not set. -/
def Value.ofWord? {α : Type} [Enumerated α] (a : Option α) : Value :=
  .ofText? (a.map Enumerated.word)

def EntryField.value (e : Option Approval.Entry) : EntryField → Value
  | approved => .bool (e.any (·.approved))
  | approvedBy => .ofText? (e.bind (·.approvedBy))
  | approvedDate => .ofText? (e.bind (·.approvedDate))

/-- The value of what a path names. -/
def Reference.value (ctx : Context) : Reference → Value
  | filePath => .text ctx.path
  | stability => .ofWord? ctx.metadata.stability
  | editPermissions => .ofWord? ctx.metadata.editPermissions
  | breakingChangesRisk => .ofWord? ctx.metadata.breakingChangesRisk
  | reviewRequired => .bool ctx.metadata.reviewRequired
  | aiContext => .ofText? ctx.metadata.aiContext
  | lastModified => .ofText? ctx.metadata.lastModified
  | methodPermission method => .ofWord? (ctx.metadata.methodPermission? method)
  | approval slot field => field.value (ctx.approval.map (·.entry slot))

/-- The value of a path. -/
def resolve (ctx : Context) (segments : List String) : Except Error Value :=
  match Reference.ofSegments? segments with
  | some r => .ok (r.value ctx)
  | none => .error (.unknownPath segments)

/-! ## Functions -/

/-- The functions that a condition can call. -/
inductive Function where
  | hasApproval
  | isHighRisk
  | isReadOnly
  | isDeprecated
deriving DecidableEq, Repr

def Function.ofName? (name : String) : Option Function :=
  if name = "hasApproval" then some hasApproval
  else if name = "isHighRisk" then some isHighRisk
  else if name = "isReadOnly" then some isReadOnly
  else if name = "isDeprecated" then some isDeprecated
  else none

/-- How many arguments a function takes. -/
def Function.arity : Function → Nat
  | hasApproval => 1
  | _ => 0

/-- The slot that a value names. -/
def slotOf : Value → Except Error Slot
  | .text s =>
    match Slot.ofName? s with
    | some slot => .ok slot
    | none => .error (.kind (.notASlot s))
  | v => .error (.kind (.slotExpected v))

/-- What a function answers, given the value of its argument if it takes one. -/
def Function.apply (ctx : Context) (argument : Except Error Value) : Function → Except Error Value
  | hasApproval => do
    let slot ← slotOf (← argument)
    return .bool (Approval.isApproved ctx.approval slot)
  | isHighRisk => .ok (.bool ctx.metadata.isHighRisk)
  | isReadOnly => .ok (.bool ctx.metadata.isReadOnly)
  | isDeprecated => .ok (.bool ctx.metadata.isDeprecated)

/-- The function of a call that has the right number of arguments. -/
def callee (name : String) (args : Nat) : Except Error Function :=
  match Function.ofName? name with
  | some f => if args = f.arity then .ok f else .error (.arity name f.arity args)
  | none => .error (.unknownFunction name)

/-! ## Expressions -/

/-- The boolean that an operand of `op` has to be. -/
def asOperand (op : String) : Value → Except Error Bool
  | .bool b => .ok b
  | v => .error (.kind (.operand op v))

mutual

/-- The value of an expression. `&&` and `||` leave their right side alone when the left one
decides. -/
def eval (ctx : Context) : Expr → Except Error Value
  | .literal v => .ok v
  | .path segments => resolve ctx segments
  | .call name args => do
    let f ← callee name args.length
    f.apply ctx (evalFirst ctx args)
  | .not e => do
    let b ← asOperand "!" (← eval ctx e)
    return .bool (!b)
  | .and a b => do
    let x ← asOperand "&&" (← eval ctx a)
    if x then do
      let y ← asOperand "&&" (← eval ctx b)
      return .bool y
    else return .bool false
  | .or a b => do
    let x ← asOperand "||" (← eval ctx a)
    if x then return .bool true
    else do
      let y ← asOperand "||" (← eval ctx b)
      return .bool y
  | .eq a b => do
    let x ← eval ctx a
    let y ← eval ctx b
    return .bool (x = y)
  | .ne a b => do
    let x ← eval ctx a
    let y ← eval ctx b
    return .bool (x ≠ y)

/-- The value of the first of some expressions. -/
def evalFirst (ctx : Context) : List Expr → Except Error Value
  | [] => .ok .null
  | e :: _ => eval ctx e

end

/-- The boolean that a condition evaluates to. -/
def evalBool (ctx : Context) (e : Expr) : Except Error Bool := do
  match ← eval ctx e with
  | .bool b => return b
  | v => .error (.kind (.result v))

end EditGate.Condition
