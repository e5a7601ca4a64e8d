/-!
# Doubles

A double is the 64-bit word of a binary floating-point number. Its magnitude is decoded into
`m · 2^q` with natural `m`, and every operation works on those exact integers and rounds once, to
the nearest double, a tie going to the even one. No operation of the machine is involved, so all
of it can be reasoned about.
-/

namespace EditGate.Decimal

/-- A binary floating-point number of 64 bits, by its word. -/
structure Double where
  bits : UInt64
deriving DecidableEq, Repr, Inhabited

namespace Double

/-- The number of bits of the fraction. -/
def fractionBits : Nat := 52

/-- The exponent of the smallest positive double. -/
def lowestExponent : Int := -1074

/-- The word of positive infinity, above those of all finite magnitudes. -/
def infinityWord : Nat := 0x7ff * Nat.pow 2 fractionBits

/-- The bit of the sign. -/
def signBit : Nat := 0x8000000000000000

def isNegative (d : Double) : Bool := d.bits.toNat ≥ signBit

/-- The word without its sign. -/
def magnitudeWord (d : Double) : Nat := d.bits.toNat % signBit

def isZero (d : Double) : Bool := d.magnitudeWord = 0

/-- The natural `m` and the exponent `q` of a finite magnitude `m · 2^q`. -/
def significand (d : Double) : Nat × Int :=
  let field := d.magnitudeWord / Nat.pow 2 fractionBits
  let fraction := d.magnitudeWord % Nat.pow 2 fractionBits
  if field = 0 then (fraction, lowestExponent)
  else (fraction + Nat.pow 2 fractionBits, lowestExponent + (field - 1 : Nat))

/-- The double of a magnitude word, with a sign. -/
def ofMagnitude (negative : Bool) (word : Nat) : Double :=
  ⟨UInt64.ofNat (word + if negative then signBit else 0)⟩

def zero : Double := ⟨0⟩

/-- The quotient rounded to the nearest natural number, a tie going to the even one. -/
def roundDiv (num den : Nat) : Nat :=
  let quotient := num / den
  let rest := num % den
  if 2 * rest > den || (2 * rest == den && quotient % 2 == 1) then quotient + 1 else quotient

/-- The exponent of the last place of the double nearest to `num / den`. -/
def lastPlace (num den : Nat) : Int :=
  let guess : Int := (Nat.log2 num : Int) - Nat.log2 den
  let reaches :=
    if guess ≥ 0 then num ≥ den * Nat.pow 2 guess.toNat else num * Nat.pow 2 (-guess).toNat ≥ den
  let top := if reaches then guess else guess - 1
  max (top - fractionBits) lowestExponent

/-- The nearest double to `num / den`, unless that is beyond the largest one. -/
def ofRatio? (num den : Nat) : Option Double :=
  if num = 0 then some zero
  else
    let e := lastPlace num den
    let m := if e ≥ 0 then roundDiv num (den * Nat.pow 2 e.toNat) else roundDiv (num * Nat.pow 2 (-e).toNat) den
    let word := (e - lowestExponent).toNat * Nat.pow 2 fractionBits + m
    if word < infinityWord then some (ofMagnitude false word) else none

/-- The exact magnitude as a quotient of naturals. -/
def ratio (d : Double) : Nat × Nat :=
  let (m, q) := d.significand
  if q ≥ 0 then (m * Nat.pow 2 q.toNat, 1) else (m, Nat.pow 2 (-q).toNat)

/-- The product of two magnitudes. -/
def mul? (a b : Double) : Option Double :=
  ofRatio? (a.ratio.1 * b.ratio.1) (a.ratio.2 * b.ratio.2)

/-- The quotient of two magnitudes. -/
def div? (a b : Double) : Option Double :=
  ofRatio? (a.ratio.1 * b.ratio.2) (a.ratio.2 * b.ratio.1)

def negate (d : Double) : Double := ofMagnitude (!d.isNegative) d.magnitudeWord

end Double

end EditGate.Decimal
