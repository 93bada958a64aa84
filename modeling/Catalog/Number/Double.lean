/-!
# Double precision numbers

A double is its 64 bit IEEE 754 pattern. The magnitude of a finite double is `m * 2 ^ q` for the
mantissa `m` and the exponent `q` read off the pattern; read as a number the pattern without its
sign is `(q + 1074) * 2 ^ 52 + m`, for subnormal numbers as well. A decimal is read as the nearest
double, and a value midway between two of them goes to the even mantissa. All of it is exact
arithmetic on natural numbers.
-/

namespace Catalog

/-- A double precision number, as its bit pattern. -/
structure Double where
  /-- Sign, eleven bits of exponent and fifty-two bits of fraction, most significant first. -/
  bits : UInt64
  deriving DecidableEq, Repr

namespace Double

/-- The fraction has fifty-two bits. -/
def fractionBound : Nat := Nat.pow 2 52

/-- The pattern of infinity, the first one that is no finite magnitude. -/
def infinityPattern : Nat := 2047 * fractionBound

/-- The sign bit. -/
def signBit : Nat := Nat.pow 2 63

/-- The sign bit is set; this holds of negative zero. -/
def isNegative (x : Double) : Bool := decide (signBit ≤ x.bits.toNat)

/-- The pattern without its sign. -/
def magnitude (x : Double) : Nat := x.bits.toNat % signBit

/-- Neither infinite nor an undefined number. -/
def isFinite (x : Double) : Bool := decide (x.magnitude < infinityPattern)

/-- The mantissa of a finite double, with its leading bit unless the number is subnormal. -/
def mantissa (x : Double) : Nat :=
  if x.magnitude < fractionBound then x.magnitude
  else fractionBound + x.magnitude % fractionBound

/-- The power of two that the mantissa of a finite double is multiplied by. -/
def exponent (x : Double) : Int :=
  if x.magnitude < fractionBound then -1074 else (x.magnitude / fractionBound : Nat) - 1075

/-- Put a sign on a pattern. -/
def ofMagnitude (negative : Bool) (pattern : Nat) : Double :=
  ⟨UInt64.ofNat (pattern + if negative then signBit else 0)⟩

/-- The quotient rounded to the nearest integer, a half to the even one. -/
def roundDiv (num den : Nat) : Nat :=
  let floor := num / den
  let twice := 2 * (num % den)
  if den < twice || (twice == den && floor % 2 == 1) then floor + 1 else floor

/-- `2 ^ q` as a fraction. -/
def powerOfTwo (q : Int) : Nat × Nat :=
  if 0 ≤ q then (Nat.pow 2 q.toNat, 1) else (1, Nat.pow 2 (-q).toNat)

/-- The pattern of the double nearest to `num / den`; at least `infinityPattern` on overflow. -/
def nearestPattern (num den : Nat) : Nat :=
  let guess : Int := max (-1074) ((num.log2 : Int) - den.log2 - 53)
  let floorAt (q : Int) : Nat := num * (powerOfTwo q).2 / (den * (powerOfTwo q).1)
  let q := if floorAt guess < 2 * fractionBound then guess else guess + 1
  let m := roundDiv (num * (powerOfTwo q).2) (den * (powerOfTwo q).1)
  (q + 1074).toNat * fractionBound + m

/-- The double nearest to `digits * 10 ^ exponent`, or none when that is infinite. Exponents far
outside the range are decided without computing the power. -/
def ofDecimal? (negative : Bool) (digits : Nat) (exponent : Int) : Option Double :=
  if digits = 0 then some (ofMagnitude negative 0)
  else if 400 < exponent then none
  else if exponent < -(digits.log2 : Int) - 400 then some (ofMagnitude negative 0)
  else
    let pattern :=
      if 0 ≤ exponent then nearestPattern (digits * Nat.pow 10 exponent.toNat) 1
      else nearestPattern digits (Nat.pow 10 (-exponent).toNat)
    if pattern < infinityPattern then some (ofMagnitude negative pattern) else none

end Double

end Catalog
