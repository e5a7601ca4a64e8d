import EditGate.Decimal.Shortest
import EditGate.Json.Value

/-!
# Printing JSON

Two layouts: compact, without any blank, and indented by two spaces. Both write members in the
order in which they stand. Strings escape the quote, the backslash and the controls; a double has
a point or an exponent, so it never reads back as an integer.
-/

namespace EditGate.Json

open Decimal (Double)

/-- The decimal digits of a natural number. -/
def digits (n : Nat) : List Char := Nat.toDigits 10 n

def printInt (n : Int) : List Char :=
  if n < 0 then '-' :: digits n.natAbs else digits n.natAbs

/-- How doubles are laid out: positionally while the point stands fewer than `below` places before
the digits and at most `above` places after their start, with an exponent beyond. -/
structure DoubleLayout where
  below : Int
  above : Int

/-- Five places below the point and sixteen digits above it are written out. -/
def doubleLayout : DoubleLayout := ⟨5, 16⟩

/-- A magnitude `c · 10^p` written by position, with at least one digit after the point. -/
def printPositional (c : Nat) (p : Int) : List Char :=
  let ds := digits c
  let point : Int := ds.length + p
  if p ≥ 0 then ds ++ List.replicate p.toNat '0' ++ ['.', '0']
  else if point > 0 then ds.take point.toNat ++ '.' :: ds.drop point.toNat
  else '0' :: '.' :: List.replicate (-point).toNat '0' ++ ds

/-- An exponent, with its sign in either case. -/
def printExponent (e : Int) : List Char := if e < 0 then printInt e else '+' :: printInt e

/-- A magnitude `c · 10^p` written with an exponent. -/
def printScientific (c : Nat) (p : Int) : List Char :=
  match digits c with
  | [] => []
  | d :: ds =>
    let mantissa := if ds.isEmpty then [d] else d :: '.' :: ds
    mantissa ++ 'e' :: printExponent (ds.length + p)

def printMagnitude (layout : DoubleLayout) (c : Nat) (p : Int) : List Char :=
  let point : Int := (digits c).length + p
  if -layout.below < point ∧ point ≤ layout.above then printPositional c p else printScientific c p

def printDouble (d : Double) : List Char :=
  let (c, p) := d.shortest
  let body := printMagnitude doubleLayout c p
  if d.isNegative then '-' :: body else body

/-- A number below sixteen as a lower-case hexadecimal digit. -/
def hexChar (n : Nat) : Char := Nat.digitChar n

/-- A character as it stands between quotes. -/
def escapeChar (c : Char) : List Char :=
  if c = '"' then ['\\', '"']
  else if c = '\\' then ['\\', '\\']
  else if c.toNat < 0x20 then
    match c with
    | '\x08' => ['\\', 'b']
    | '\x0c' => ['\\', 'f']
    | '\n' => ['\\', 'n']
    | '\r' => ['\\', 'r']
    | '\t' => ['\\', 't']
    | _ => ['\\', 'u', '0', '0', hexChar (c.toNat / 16), hexChar (c.toNat % 16)]
  else [c]

def printString (s : String) : List Char := '"' :: s.toList.flatMap escapeChar ++ ['"']

def printBool (b : Bool) : List Char := if b then "true".toList else "false".toList

mutual

/-- The value without any blank. -/
def print : Json → List Char
  | null => "null".toList
  | bool b => printBool b
  | int n => printInt n
  | double d => printDouble d
  | str s => printString s
  | arr items => '[' :: printItems items ++ [']']
  | obj members => '\x7b' :: printMembers members ++ ['\x7d']

def printItems : List Json → List Char
  | [] => []
  | [v] => print v
  | v :: vs => print v ++ ',' :: printItems vs

def printMembers : List (String × Json) → List Char
  | [] => []
  | [(k, v)] => printString k ++ ':' :: print v
  | (k, v) :: ms => printString k ++ ':' :: print v ++ ',' :: printMembers ms

end

/-- A line break and the indentation of that many levels. -/
def breakLine (level : Nat) : List Char := '\n' :: List.replicate (2 * level) ' '

mutual

/-- The value over several lines, its own lines indented by `level`. -/
def printIndented (level : Nat) : Json → List Char
  | arr items =>
    if items.isEmpty then ['[', ']']
    else '[' :: printItemsIndented (level + 1) items ++ breakLine level ++ [']']
  | obj members =>
    if members.isEmpty then ['\x7b', '\x7d']
    else '\x7b' :: printMembersIndented (level + 1) members ++ breakLine level ++ ['\x7d']
  | null => "null".toList
  | bool b => printBool b
  | int n => printInt n
  | double d => printDouble d
  | str s => printString s

def printItemsIndented (level : Nat) : List Json → List Char
  | [] => []
  | [v] => breakLine level ++ printIndented level v
  | v :: vs => breakLine level ++ printIndented level v ++ ',' :: printItemsIndented level vs

def printMembersIndented (level : Nat) : List (String × Json) → List Char
  | [] => []
  | [(k, v)] => breakLine level ++ printString k ++ ':' :: ' ' :: printIndented level v
  | (k, v) :: ms =>
    breakLine level ++ printString k ++ ':' :: ' ' :: printIndented level v ++
      ',' :: printMembersIndented level ms

end

/-- The value over several lines. -/
def pretty (v : Json) : List Char := printIndented 0 v

end EditGate.Json
