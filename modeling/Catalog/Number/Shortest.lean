import Catalog.Number.Double

/-!
# The shortest decimal of a double

The decimals that read back as a given finite double form an interval around it, whose ends belong
to it exactly when the mantissa is even. The shortest decimal lies on the coarsest grid of one to
seventeen digits that meets the interval. Only the two neighbours of the value on a grid have to be
tried: any grid point inside the interval has one of them between itself and the value.
-/

namespace Catalog

/-- The number `digits * 10 ^ exponent`. -/
structure Decimal where
  digits : Nat
  exponent : Int
  deriving DecidableEq, Repr

/-- The number of decimal digits of a natural number; zero has one. -/
def digitCount (n : Nat) : Nat := (Nat.toDigits 10 n).length

/-- Move trailing zeros of the digits into the exponent, at most `fuel` of them. -/
def Decimal.stripZeros : Nat → Decimal → Decimal
  | 0, d => d
  | fuel + 1, d =>
    if d.digits ≠ 0 ∧ d.digits % 10 = 0 then stripZeros fuel ⟨d.digits / 10, d.exponent + 1⟩
    else d

namespace Double

/-- The `k` with `10 ^ (k - 1) ≤ num / den < 10 ^ k`. -/
def decimalPoint (num den : Nat) : Int :=
  if den ≤ num then digitCount (num / den)
  else 1 - (digitCount ((den + num - 1) / num - 1) : Int)

/-- The interval of decimals that read back as a positive double, in quarters of the last binary
place: its lower end, four times the mantissa, and its upper end. -/
structure Rounding where
  lower : Nat
  value : Nat
  upper : Nat
  /-- The ends themselves read back as the double. -/
  closed : Bool

/-- Below a power of two the next double is half as far away. -/
def rounding (x : Double) : Rounding :=
  let m := x.mantissa
  let halfGap := if m = fractionBound ∧ -1074 < x.exponent then 1 else 2
  ⟨4 * m - halfGap, 4 * m, 4 * m + 2, m % 2 == 0⟩

/-- The candidate on the grid `10 ^ p`, if one of the two neighbours of the value on it reads back.
Of two such neighbours the nearer is taken, and the even one when both are equally near. -/
def onGrid? (r : Rounding) (q p : Int) : Option Decimal :=
  let binary := (powerOfTwo (q - 2)).1 * Nat.pow 10 (-p).toNat
  let decimal := (powerOfTwo (q - 2)).2 * Nat.pow 10 p.toNat
  let value := r.value * binary
  let reads (d : Nat) : Bool :=
    let place := d * decimal
    let low := r.lower * binary
    let high := r.upper * binary
    (low < place && place < high) || (r.closed && (place == low || place == high))
  let below := value / decimal
  let above := below + 1
  let down := value - below * decimal
  let up := above * decimal - value
  match reads below && below != 0, reads above with
  | true, true =>
    if down < up || (down == up && below % 2 == 0) then some ⟨below, p⟩ else some ⟨above, p⟩
  | true, false => some ⟨below, p⟩
  | false, true => some ⟨above, p⟩
  | false, false => none

/-- The shortest decimal that reads back as the magnitude of a finite double, without trailing
zeros. Seventeen digits always suffice. -/
def shortest (x : Double) : Decimal :=
  if x.mantissa = 0 then ⟨0, 0⟩
  else
    let (up, down) := powerOfTwo x.exponent
    let point := decimalPoint (x.mantissa * up) down
    let grids := (List.range 17).map fun (n : Nat) => point - ((n : Int) + 1)
    match grids.findSome? (onGrid? x.rounding x.exponent) with
    | some d => d.stripZeros 17
    | none => ⟨x.mantissa, 0⟩

end Double

end Catalog
