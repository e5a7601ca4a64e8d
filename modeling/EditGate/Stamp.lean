import EditGate.Json.Print

/-!
# Time stamps and event names

A stamp is the number of whole seconds since 1970 followed by `Z`. Event names are 26 digits of
base 32; the supply of them is a counter, so that a run is a function of its inputs.
-/

namespace EditGate

/-- The stamp of a time in seconds since 1970; an earlier time counts as zero. -/
def stamp (now : Int) : String := toString now.toNat ++ "Z"

/-- The digits of event names: the ten numerals and the letters without I, L, O and U. -/
def eventDigits : List Char :=
  ['0', '1', '2', '3', '4', '5', '6', '7', '8', '9', 'A', 'B', 'C', 'D', 'E', 'F', 'G', 'H',
   'J', 'K', 'M', 'N', 'P', 'Q', 'R', 'S', 'T', 'V', 'W', 'X', 'Y', 'Z']

/-- The last `width` digits of a number, the lowest one last. -/
def eventName.go : (width n : Nat) → List Char → List Char
  | 0, _, acc => acc
  | width + 1, n, acc => eventName.go width (n / 32) (eventDigits.getD (n % 32) '0' :: acc)

/-- The name of the event with that number. -/
def eventName (n : Nat) : String := String.ofList (eventName.go 26 (n % Nat.pow 2 128) [])

end EditGate
