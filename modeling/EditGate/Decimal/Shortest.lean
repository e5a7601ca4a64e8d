import EditGate.Decimal.Double

/-!
# The shortest decimal of a double

Between a double and its two neighbours lies the interval of numbers that read back as it; its
ends belong to it when the double is even. The shortest decimal is the point nearest to the double
on the coarsest grid of powers of ten that has a point in the interval.
-/

namespace EditGate.Decimal

/-- A magnitude and the ends of its rounding interval, as numerators over one denominator. -/
structure RoundingInterval where
  low : Nat
  value : Nat
  high : Nat
  den : Nat
  /-- Whether the ends belong to the interval. -/
  closed : Bool

/-- The interval of the positive magnitude `m · 2^q`: half a step up, and half a step down, which
is a quarter where the steps below are half as long. -/
def RoundingInterval.of (m : Nat) (q : Int) : RoundingInterval :=
  let quarter := m = Nat.pow 2 Double.fractionBits ∧ q > Double.lowestExponent
  let scale := Nat.pow 2 (q - 2).toNat
  { low := (4 * m - if quarter then 1 else 2) * scale
    value := 4 * m * scale
    high := (4 * m + 2) * scale
    den := Nat.pow 2 (2 - q).toNat
    closed := m % 2 = 0 }

/-- The point of the grid of `10^p` nearest to the value, if one of its two neighbours there is in
the interval; a tie goes to the even one. -/
def RoundingInterval.nearestOn? (i : RoundingInterval) (p : Int) : Option Nat :=
  let up := Nat.pow 10 (-p).toNat
  let step := i.den * Nat.pow 10 p.toNat
  let inside (c : Nat) : Bool :=
    if i.closed then i.low * up ≤ c * step && c * step ≤ i.high * up
    else i.low * up < c * step && c * step < i.high * up
  let c := i.value * up / step
  let below := i.value * up - c * step
  let above := (c + 1) * step - i.value * up
  let preferLower := below < above || (below == above && c % 2 == 0)
  match inside c, inside (c + 1) with
  | true, true => some (if preferLower then c else c + 1)
  | true, false => some c
  | false, true => some (c + 1)
  | false, false => none

/-- Tries the grids of `10^(n - 325)` and finer ones. -/
def RoundingInterval.shortestFrom (i : RoundingInterval) : Nat → Nat × Int
  | 0 => (0, 0)
  | n + 1 =>
    let p : Int := (n : Int) - 324
    match i.nearestOn? p with
    | some c => (c, p)
    | none => i.shortestFrom n

/-- The shortest decimal `c · 10^p` of a magnitude. -/
def Double.shortest (d : Double) : Nat × Int :=
  if d.isZero then (0, 0)
  else
    let (m, q) := d.significand
    (RoundingInterval.of m q).shortestFrom 634

end EditGate.Decimal
