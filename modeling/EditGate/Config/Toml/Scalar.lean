import EditGate.Config.Toml.Moment
import EditGate.Config.Toml.Quoted
import EditGate.Json.Value

/-!
# Unquoted values of a configuration

Booleans, numbers, dates and times stand without quotes. Fields take booleans and integers only, so
any other value, if it is well formed, is read as null, which no field takes either.
-/

namespace EditGate.Toml

/-! ## Numbers -/

def isHexDigit (c : Char) : Bool := (Json.hexDigit? c).isSome

/-- An integer in a base other than ten, after the letter of the base. Without digits it has no
value. -/
def radixInteger? (base : Nat) (ds : List Char) : Option Json :=
  if !underscoresFit isHexDigit ds then none
  else if ds.isEmpty then some .null
  else (number? base (dropUnderscores ds)).map fun n => .int n

/-- An integer in base ten, after its sign. A zero at the start stands alone. What stands beside an
underscore is a digit of any base, but only decimal digits alone have a value. -/
def decimalInteger? (sign : Option Char) (s : List Char) : Option Json :=
  if s.head? = some '0' && s.length > 1 then none
  else if !underscoresFit isHexDigit s then none
  else match number? 10 (dropUnderscores s) with
    | none => some .null
    | some n => some (.int (if sign = some '-' then -n else n))

/-- What follows at least one decimal digit. A zero at the start stands alone unless `anyZero`. -/
def dropDigits? (anyZero : Bool) (s : List Char) : Option (List Char) :=
  let isPart := fun c : Char => c.isDigit || c == '_'
  let count := (s.takeWhile isPart).countP Char.isDigit
  if count = 0 then none
  else if count > 1 && s.head? = some '0' && !anyZero then none
  else some (s.dropWhile isPart)

/-- What follows the fraction, if there is one. -/
def dropFraction? (s : List Char) : Option (List Char) :=
  match s with
  | '.' :: s => dropDigits? true s
  | _ => some s

/-- What follows the exponent, if there is one. -/
def dropExponent? (s : List Char) : Option (List Char) :=
  match s with
  | c :: s =>
    if c = 'e' ∨ c = 'E' then
      match s with
      | '+' :: s => dropDigits? true s
      | '-' :: s => dropDigits? true s
      | s => dropDigits? true s
    else some (c :: s)
  | [] => some []

/-- Whether a text without its sign is a number with a fraction, an exponent or both. -/
def isFloat (s : List Char) : Bool :=
  underscoresFit Char.isDigit s &&
    ((dropDigits? false s).bind dropFraction?).bind dropExponent? == some []

def isFloatMark (c : Char) : Bool := c == '.' || c == 'e' || c == 'E'

/-- A number in base ten, a date or a time, after its sign. What follows the first digits tells
them apart. -/
def measure? (sign : Option Char) (s : List Char) : Option Json :=
  if s = "inf".toList ∨ s = "nan".toList then some .null
  else
    match s.dropWhile Char.isDigit with
    | [] => if s.isEmpty then none else decimalInteger? sign s
    | c :: rest =>
      if !s.head?.any Char.isDigit then none
      else if c = '-' ∨ c = ':' then if sign.isNone && isMoment s then some .null else none
      else if (c :: rest).contains ' ' then none
      else if (c :: rest).any isFloatMark then if isFloat s then some .null else none
      else if c = '_' then decimalInteger? sign s
      else none

/-! ## Values without quotes -/

/-- The value that a text without quotes writes. -/
def scalar? (s : List Char) : Option Json :=
  if s = "true".toList then some (.bool true)
  else if s = "false".toList then some (.bool false)
  else match s with
    | '0' :: 'x' :: s => radixInteger? 16 s
    | '0' :: 'o' :: s => radixInteger? 8 s
    | '0' :: 'b' :: s => radixInteger? 2 s
    | '+' :: s => measure? (some '+') s
    | '-' :: s => measure? (some '-') s
    | s => measure? none s

/-- A character that ends a value without quotes. -/
def endsScalar (c : Char) : Bool :=
  isGap c || c == '\n' || c == '\r' || c == '#' || c == '=' || c == ',' ||
    c == '[' || c == ']' || c == '\x7b' || c == '\x7d'

/-- Whether a text goes on with a value without quotes. -/
def startsScalar (s : List Char) : Bool :=
  s.head?.any fun c => !endsScalar c && c != '"' && c != '\x27'

/-- The text of a value without quotes, and what follows. Blanks between two parts of such a text
belong to it, as between a date and a time. -/
def cutScalar : List Char → List Char × List Char
  | [] => ([], [])
  | c :: s =>
    if if isGap c then startsScalar (skipGap s) else !endsScalar c then
      let (text, rest) := cutScalar s
      (c :: text, rest)
    else ([], c :: s)

def readScalar (s : List Char) : Option (Json × List Char) :=
  let (text, rest) := cutScalar s
  (scalar? text).map (·, rest)

end EditGate.Toml
