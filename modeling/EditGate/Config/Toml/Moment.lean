import EditGate.Config.Toml.Digits

/-!
# Dates and times of a configuration

A date, a time of day, or both, the date first; a date with a time may be followed by the distance
of its zone. No field takes one, so of a date or time it only counts that it is well formed.
-/

namespace EditGate.Toml

/-- What follows a sign. -/
def after? (sign : Char) : List Char → Option (List Char)
  | [] => none
  | c :: s => if c = sign then some s else none

def daysIn (year month : Nat) : Nat :=
  if month = 2 then if year % 4 = 0 ∧ (year % 100 ≠ 0 ∨ year % 400 = 0) then 29 else 28
  else if month = 4 ∨ month = 6 ∨ month = 9 ∨ month = 11 then 30
  else 31

/-- What follows a date: year, month and day. -/
def dropDate? (s : List Char) : Option (List Char) := do
  let (year, s) ← readFixed? 4 s
  let (month, s) ← readFixed? 2 (← after? '-' s)
  let (day, s) ← readFixed? 2 (← after? '-' s)
  if 1 ≤ month ∧ month ≤ 12 ∧ 1 ≤ day ∧ day ≤ daysIn year month then some s else none

/-- What follows an hour and a minute. -/
def dropClock? (s : List Char) : Option (List Char) := do
  let (hour, s) ← readFixed? 2 s
  let (minute, s) ← readFixed? 2 (← after? ':' s)
  if hour < 24 ∧ minute < 60 then some s else none

/-- What follows a second, which may be a leap second, and its fraction. -/
def dropSecond? (s : List Char) : Option (List Char) := do
  let (second, s) ← readFixed? 2 s
  if second > 60 then none
  else match after? '.' s with
    | none => some s
    | some s => if s.head?.any Char.isDigit then some (s.dropWhile Char.isDigit) else none

/-- What follows a time of day. Its seconds may be missing. -/
def dropTime? (s : List Char) : Option (List Char) := do
  let s ← dropClock? s
  match after? ':' s with
  | none => some s
  | some s => dropSecond? s

/-- Whether a text is the distance of a zone, or nothing. -/
def isZone : List Char → Bool
  | [] => true
  | [c] => c == 'Z' || c == 'z'
  | c :: s => (c == '+' || c == '-') && dropClock? s == some []

/-- Whether a text is a date, a time of day, or both. -/
def isMoment (s : List Char) : Bool :=
  match dropDate? s with
  | none => dropTime? s == some []
  | some [] => true
  | some (c :: s) => (c == 'T' || c == 't' || c == ' ') && (dropTime? s).any isZone

end EditGate.Toml
