import EditGate.Decimal.Double

/-!
# Decimal numerals

A numeral is the digits of a written number. Its value as a double is found with one word and one
scaling: digits are gathered into a 64-bit word for as long as they fit, the word is rounded to a
double, and that is multiplied or divided by the double nearest to a power of ten. Each of the
three steps rounds, so the result is near the written value and not always the nearest double.
-/

namespace EditGate.Decimal

/-- A written number: its digits before the point, those after it, and the signed exponent. -/
structure Numeral where
  negative : Bool
  whole : List Nat
  fraction : Option (List Nat)
  /-- Whether the exponent is negative, and its digits. -/
  exponent : Option (Bool × List Nat)
deriving DecidableEq, Repr

namespace Numeral

/-- The largest value of a 64-bit word. -/
def wordMax : Nat := 0xffffffffffffffff

/-- The largest value of the digits of an exponent. -/
def exponentMax : Nat := 0x7fffffff

/-- Appends digits to a word while the result fits; gives the word and the digits left over. -/
def gather (word : Nat) : List Nat → Nat × List Nat
  | [] => (word, [])
  | d :: ds => if word * 10 + d > wordMax then (word, d :: ds) else gather (word * 10 + d) ds

/-- The natural number that digits write. -/
def natural (digits : List Nat) : Nat := digits.foldl (fun n d => n * 10 + d) 0

/-- The largest power of ten that scales in one step. -/
def topPower : Nat := 308

def powerOfTen? (n : Nat) : Option Double := Double.ofRatio? (Nat.pow 10 n) 1

/-- A magnitude times `10^n`, if that is finite. -/
def scaleUp? (d : Double) (n : Nat) : Option Double :=
  if n ≤ topPower then do d.mul? (← powerOfTen? n)
  else if d.isZero then some d
  else none

/-- A magnitude divided by `10^n`, in steps of at most the largest power. -/
def scaleDown? (d : Double) (n : Nat) : Option Double :=
  if n ≤ topPower then do d.div? (← powerOfTen? n)
  else if d.isZero then some d
  else do scaleDown? (← d.div? (← powerOfTen? topPower)) (n - topPower)
termination_by n
decreasing_by simp only [topPower] at *; omega

/-- A word times a power of ten as a double, if that is finite. -/
def scaled? (word : Nat) (exponent : Int) : Option Double := do
  let d ← Double.ofRatio? word 1
  if exponent ≥ 0 then scaleUp? d exponent.toNat else scaleDown? d (-exponent).toNat

/-- Whether the numeral is written as an integer. -/
def isInteger (n : Numeral) : Bool := n.fraction.isNone && n.exponent.isNone

/-- The magnitude of the numeral, if it is not beyond the largest double. -/
def magnitude? (n : Numeral) : Option Double :=
  let (word, left) := gather 0 n.whole
  let places := n.fraction.getD []
  let (word, unread) := gather word places
  let start : Int := (left.length : Int) - (places.length - unread.length : Nat)
  match n.exponent with
  | none => scaled? word start
  | some (negative, digits) =>
    let e := natural digits
    if e > exponentMax then if word ≠ 0 && !negative then none else some Double.zero
    else scaled? word (if negative then start - e else start + e)

/-- The double that the numeral is read as. -/
def toDouble? (n : Numeral) : Option Double :=
  n.magnitude?.map fun d => if n.negative then d.negate else d

/-- The integer that the numeral is read as: one of 64 bits, with or without sign, and not the
negative zero. -/
def toInt? (n : Numeral) : Option Int :=
  let value := natural n.whole
  if !n.isInteger then none
  else if n.negative then if 0 < value && value ≤ 0x8000000000000000 then some (-value) else none
  else if value ≤ wordMax then some value
  else none

end Numeral

end EditGate.Decimal
