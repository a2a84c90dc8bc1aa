import BloqCircuit.Decimal.Layout
/-! Multiplication and addition of doubles in one step. Product and sum are exact, and only the
result is rounded. -/
namespace BloqCircuit.Double

/-- `n / 2 ^ k` to the nearest whole number; a half goes to the even neighbour. -/
def roundQuotient (n k : Nat) : Nat :=
  let unit := Nat.pow 2 k
  let floor := n / unit
  let rest := n % unit
  if 2 * rest < unit || (2 * rest == unit && floor % 2 == 0) then floor else floor + 1

/-- The bits of infinity. -/
def infinityBits : Nat := 0x7ff0000000000000

/-- The bits of the double nearest to `n * 2 ^ exponent`. At most 53 digits are kept, none of them
below `2 ^ -1074`. Doubles lie in the order of their bits, so that a carry out of the digits goes
into the exponent, and from the greatest double to infinity. -/
def nearestBits (n : Nat) (exponent : Int) : Nat :=
  if n = 0 then 0
  else
    let place := max (exponent + n.log2 - 52) (-1074)
    let digits :=
      match place - exponent with
      | .ofNat k => roundQuotient n k
      | .negSucc k => n * Nat.pow 2 (k + 1)
    min ((place + 1074).toNat * Nat.pow 2 52 + digits) infinityBits

/-- A finite double without rounding, as `significand * 2 ^ exponent`. -/
structure Exact where
  significand : Int
  exponent : Int
deriving DecidableEq, Repr

namespace Exact

def ofFloat (x : Float) : Exact :=
  let b := Decimal.Binary.ofBits x.toBits
  ⟨if Decimal.isNegative x then -b.mantissa else b.mantissa, b.exponent⟩

def mul (x y : Exact) : Exact := ⟨x.significand * y.significand, x.exponent + y.exponent⟩

/-- The significand in units of `2 ^ exponent`, for an exponent that is not above its own. -/
def units (x : Exact) (exponent : Int) : Int :=
  x.significand * Nat.pow 2 (x.exponent - exponent).toNat

def add (x y : Exact) : Exact :=
  let exponent := min x.exponent y.exponent
  ⟨x.units exponent + y.units exponent, exponent⟩

/-- The nearest double. -/
def toFloat (x : Exact) : Float :=
  let magnitude := Float.ofBits (UInt64.ofNat (nearestBits x.significand.natAbs x.exponent))
  if x.significand < 0 then -magnitude else magnitude

end Exact

/-! ## Rounding errors

What one operation loses in rounding is a double again, as long as no part of it leaves the range of
doubles. Where the errors of the product and of the sum add up exactly, doubles suffice. -/

/-- `2 ^ 27 + 1`. -/
def splitter : Float := 134217729

/-- A double with the upper half of the digits; the other half is the difference. -/
@[inline] def upperHalf (x : Float) : Float :=
  let wide := splitter * x
  wide - (wide - x)

/-- What the rounded product of two doubles lacks. -/
@[inline] def productError (x y product : Float) : Float :=
  let xHigh := upperHalf x
  let xLow := x - xHigh
  let yHigh := upperHalf y
  let yLow := y - yHigh
  xLow * yLow - (((product - xHigh * yHigh) - xLow * yHigh) - xHigh * yLow)

/-- What the rounded sum of two doubles lacks. -/
@[inline] def sumError (x y sum : Float) : Float :=
  let second := sum - x
  let first := sum - second
  (x - first) + (y - second)

/-- The bounds of moderate size. -/
def small : Float := 1e-100
def large : Float := 1e100

/-- Factors of such a size have a product and a product error within the range of doubles. -/
@[inline] def isModerate (x : Float) : Bool := small < x.abs && x.abs < large

/-- `x * y + z`, rounded once. A product with a zero, an infinity or no number is exact, and a
finite product does not change an infinity. -/
def mulAdd (x y z : Float) : Float :=
  if x == 0 || y == 0 || !x.isFinite || !y.isFinite then x * y + z
  else if !z.isFinite then z
  else
    let product := x * y
    let sum := product + z
    let productRest := productError x y product
    let sumRest := sumError product z sum
    let rest := sumRest + productRest
    if isModerate x && isModerate y && z.abs < large && sumError sumRest productRest rest == 0 then
      sum + rest
    else (((Exact.ofFloat x).mul (Exact.ofFloat y)).add (Exact.ofFloat z)).toFloat

end BloqCircuit.Double
