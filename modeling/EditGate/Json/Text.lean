import EditGate.Json.Tree
import EditGate.Json.Value

/-!
# JSON text

A text is read by way of its tree (`Tree.toJson?`): numbers beyond the range of doubles, halves of
surrogate pairs, and more than `maxDepth` nested containers are refused, and of two members of one
name the later counts.
-/

namespace EditGate.Json

open Decimal (Numeral)

/-- The containers that may be nested in a value. -/
def maxDepth : Nat := 127

/-! ## From tree to value -/

def isHighUnit (n : Nat) : Bool := 0xd800 ≤ n && n < 0xdc00

def isLowUnit (n : Nat) : Bool := 0xdc00 ≤ n && n < 0xe000

/-- The characters of a string, unless it holds half of a surrogate pair. -/
def characters? : List Piece → Option (List Char)
  | [] => some []
  | .char c :: s => (characters? s).map (c :: ·)
  | .unit a :: .unit b :: s =>
    if isHighUnit a then
      if isLowUnit b then
        (characters? s).map (Char.ofNat (0x10000 + (a - 0xd800) * 0x400 + (b - 0xdc00)) :: ·)
      else none
    else if isLowUnit a then none
    else (characters? (.unit b :: s)).map (Char.ofNat a :: ·)
  | .unit a :: s =>
    if isHighUnit a || isLowUnit a then none else (characters? s).map (Char.ofNat a :: ·)

def string? (pieces : List Piece) : Option String := (characters? pieces).map String.ofList

/-- The integer or else the double that a numeral is read as. -/
def number? (n : Numeral) : Option Json :=
  match n.toInt? with
  | some i => some (.int i)
  | none => n.toDouble?.map .double

mutual

/-- The value of a tree in which `room` more containers may be nested. -/
def Tree.toJson? (room : Nat) : Tree → Option Json
  | .null => some .null
  | .bool b => some (.bool b)
  | .number n => number? n
  | .string pieces => (string? pieces).map .str
  | .array items =>
    if room = 0 then none else (itemsToJson? (room - 1) items).map .arr
  | .object members =>
    if room = 0 then none
    else (membersToJson? (room - 1) members).map fun ms => .obj (Keyed.ofList ms)

def itemsToJson? (room : Nat) : List Tree → Option (List Json)
  | [] => some []
  | t :: ts => do return (← t.toJson? room) :: (← itemsToJson? room ts)

def membersToJson? (room : Nat) : List (List Piece × Tree) → Option (List (String × Json))
  | [] => some []
  | (name, t) :: ts => do
    return (← string? name, ← t.toJson? room) :: (← membersToJson? room ts)

end

/-- What messages say of a text that is not read, wherever it breaks the grammar. -/
def unreadable : String := "<json error>"

/-- The value that a text writes. -/
def read? (s : List Char) : Option Json := do (← Tree.read? s).toJson? maxDepth

end EditGate.Json
