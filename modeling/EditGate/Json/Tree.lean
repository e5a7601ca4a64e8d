import EditGate.Decimal.Numeral

/-!
# JSON grammar

What a text says by the grammar alone is a tree in which numbers are still digits, strings still
have their escapes, and an object has every member that was written. Parts of a message that
nobody looks at are held to no more than this.
-/

namespace EditGate.Json

open Decimal (Numeral)

/-- A piece of a written string: a character, or a 16-bit unit given by its number. -/
inductive Piece where
  | char (c : Char)
  | unit (n : Nat)
deriving DecidableEq, Repr

/-- What a text says by the grammar alone. -/
inductive Tree where
  | null
  | bool (b : Bool)
  | number (n : Numeral)
  | string (pieces : List Piece)
  | array (items : List Tree)
  | object (members : List (List Piece × Tree))
deriving Repr

/-! ## The grammar -/

def isSpace (c : Char) : Bool := c == ' ' || c == '\t' || c == '\n' || c == '\r'

def skipSpace (s : List Char) : List Char := s.dropWhile isSpace

def hexDigit? (c : Char) : Option Nat :=
  if '0' ≤ c && c ≤ '9' then some (c.toNat - 0x30)
  else if 'a' ≤ c && c ≤ 'f' then some (c.toNat - 0x61 + 10)
  else if 'A' ≤ c && c ≤ 'F' then some (c.toNat - 0x41 + 10)
  else none

/-- The number that four hexadecimal digits write. -/
def unit? (a b c d : Char) : Option Nat := do
  return (((← hexDigit? a) * 16 + (← hexDigit? b)) * 16 + (← hexDigit? c)) * 16 + (← hexDigit? d)

/-- The character that a one-letter escape stands for. -/
def escape? : Char → Option Char
  | '"' => some '"'
  | '\\' => some '\\'
  | '/' => some '/'
  | 'b' => some '\x08'
  | 'f' => some '\x0c'
  | 'n' => some '\n'
  | 'r' => some '\r'
  | 't' => some '\t'
  | _ => none

/-- The pieces up to the closing quote, and what follows it. -/
def readPieces : List Char → Option (List Piece × List Char)
  | [] => none
  | '"' :: s => some ([], s)
  | '\\' :: 'u' :: a :: b :: c :: d :: s => do
    let n ← unit? a b c d
    let (pieces, rest) ← readPieces s
    return (.unit n :: pieces, rest)
  | '\\' :: e :: s => do
    let c ← escape? e
    let (pieces, rest) ← readPieces s
    return (.char c :: pieces, rest)
  | c :: s =>
    if c.toNat < 0x20 || c = '\\' then none
    else do
      let (pieces, rest) ← readPieces s
      return (.char c :: pieces, rest)

/-- A run of digits, which may be empty, and what follows it. -/
def readDigits (s : List Char) : List Nat × List Char :=
  ((s.takeWhile Char.isDigit).map fun c => c.toNat - 0x30, s.dropWhile Char.isDigit)

/-- The digits after a point, if there is one. -/
def readFraction : List Char → Option (Option (List Nat) × List Char)
  | '.' :: s =>
    let (digits, rest) := readDigits s
    if digits.isEmpty then none else some (some digits, rest)
  | s => some (none, s)

/-- The sign of an exponent, if one is written. -/
def readExponentSign : List Char → Bool × List Char
  | '+' :: s => (false, s)
  | '-' :: s => (true, s)
  | s => (false, s)

/-- The exponent after an `e`, if there is one. -/
def readExponent : List Char → Option (Option (Bool × List Nat) × List Char)
  | [] => some (none, [])
  | c :: s =>
    if c = 'e' ∨ c = 'E' then
      let (negative, s) := readExponentSign s
      let (digits, rest) := readDigits s
      if digits.isEmpty then none else some (some (negative, digits), rest)
    else some (none, c :: s)

/-- A number without its sign; a zero starts no longer run of digits. -/
def readNumeral (negative : Bool) (s : List Char) : Option (Numeral × List Char) := do
  let (whole, s) := readDigits s
  if whole.isEmpty || (whole.head? == some 0 && whole.length > 1) then none
  else
    let (fraction, s) ← readFraction s
    let (exponent, s) ← readExponent s
    return ({ negative, whole, fraction, exponent }, s)

/-- What follows `word` in a text that starts with it. -/
def readWord : (word s : List Char) → Option (List Char)
  | [], s => some s
  | _ :: _, [] => none
  | w :: word, c :: s => if w = c then readWord word s else none

mutual

/-- One value, after blanks. Every call takes one from the fuel. -/
def readTree : Nat → List Char → Option (Tree × List Char)
  | 0, _ => none
  | fuel + 1, s =>
    match skipSpace s with
    | [] => none
    | '[' :: s =>
      match skipSpace s with
      | ']' :: rest => some (.array [], rest)
      | s => do
        let (items, rest) ← readItems fuel s
        return (.array items, rest)
    | '\x7b' :: s =>
      match skipSpace s with
      | '\x7d' :: rest => some (.object [], rest)
      | s => do
        let (members, rest) ← readMembers fuel s
        return (.object members, rest)
    | '"' :: s => do
      let (pieces, rest) ← readPieces s
      return (.string pieces, rest)
    | '-' :: s => do
      let (n, rest) ← readNumeral true s
      return (.number n, rest)
    | c :: s =>
      if c.isDigit then do
        let (n, rest) ← readNumeral false (c :: s)
        return (.number n, rest)
      else if c = 'n' then (readWord ['u', 'l', 'l'] s).map (.null, ·)
      else if c = 't' then (readWord ['r', 'u', 'e'] s).map (.bool true, ·)
      else if c = 'f' then (readWord ['a', 'l', 's', 'e'] s).map (.bool false, ·)
      else none

/-- The items of an array and its closing bracket. -/
def readItems : Nat → List Char → Option (List Tree × List Char)
  | 0, _ => none
  | fuel + 1, s => do
    let (item, rest) ← readTree fuel s
    match skipSpace rest with
    | ',' :: rest => do
      let (items, rest) ← readItems fuel rest
      return (item :: items, rest)
    | ']' :: rest => return ([item], rest)
    | _ => none

/-- The members of an object and its closing brace. -/
def readMembers : Nat → List Char → Option (List (List Piece × Tree) × List Char)
  | 0, _ => none
  | fuel + 1, s =>
    match skipSpace s with
    | '"' :: s => do
      let (name, rest) ← readPieces s
      match skipSpace rest with
      | ':' :: rest => do
        let (value, rest) ← readTree fuel rest
        match skipSpace rest with
        | ',' :: rest => do
          let (members, rest) ← readMembers fuel rest
          return ((name, value) :: members, rest)
        | '\x7d' :: rest => return ([(name, value)], rest)
        | _ => none
      | _ => none
    | _ => none

end

/-- Blanks before a value do not matter. -/
theorem readTree_congr {s t : List Char} (h : skipSpace s = skipSpace t) (fuel : Nat) :
    readTree fuel s = readTree fuel t := by
  cases fuel with
  | zero => rw [readTree, readTree]
  | succ fuel => rw [readTree, readTree, h]

/-- Items and members may start with blanks. -/
theorem readItems_congr {s t : List Char} (h : skipSpace s = skipSpace t) (fuel : Nat) :
    readItems fuel s = readItems fuel t := by
  cases fuel with
  | zero => rw [readItems, readItems]
  | succ fuel => rw [readItems, readItems, readTree_congr h]

theorem readMembers_congr {s t : List Char} (h : skipSpace s = skipSpace t) (fuel : Nat) :
    readMembers fuel s = readMembers fuel t := by
  cases fuel with
  | zero => rw [readMembers, readMembers]
  | succ fuel => rw [readMembers, readMembers, h]

/-- What a whole text says. No value takes more calls than twice its characters. -/
def Tree.read? (s : List Char) : Option Tree := do
  let (tree, rest) ← readTree (2 * s.length + 2) s
  if (skipSpace rest).isEmpty then some tree else none

end EditGate.Json
