import EditGate.Json.Tree

/-!
# Digits of a configuration

Numbers are written in a base from two to sixteen, the digits beyond nine as letters of either
case. Between digits there may be underscores.
-/

namespace EditGate.Toml

/-- The value of a digit in a base. -/
def digit? (base : Nat) (c : Char) : Option Nat := (Json.hexDigit? c).filter (· < base)

/-- The number that digits write in a base. -/
def number? (base : Nat) (ds : List Char) : Option Nat :=
  ds.foldlM (fun n d => (digit? base d).map (n * base + ·)) 0

/-- A number of exactly so many decimal digits, and what follows. -/
def readFixed? (width : Nat) (s : List Char) : Option (Nat × List Char) :=
  if s.length < width then none else (number? 10 (s.take width)).map (·, s.drop width)

/-- Whether a digit stands on either side of every underscore, the text following a digit if
`afterDigit`. -/
def underscoresFitAfter (isDigit : Char → Bool) (afterDigit : Bool) : List Char → Bool
  | [] => true
  | c :: s =>
    if c = '_' then afterDigit && s.head?.any isDigit && underscoresFitAfter isDigit false s
    else underscoresFitAfter isDigit (isDigit c) s

/-- Whether a digit stands on either side of every underscore of a text. -/
def underscoresFit (isDigit : Char → Bool) (s : List Char) : Bool :=
  underscoresFitAfter isDigit false s

def dropUnderscores (s : List Char) : List Char := s.filter (· != '_')

end EditGate.Toml
