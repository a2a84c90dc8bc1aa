import BloqCircuit.Codec
import BloqCircuit.Scalar.MulAdd
/-! Doubles as angles, and pairs of doubles as amplitudes. -/
namespace BloqCircuit

namespace Double

/-- In a gate's name an angle has the fewest digits that read back, never an exponent, and no point
if it is whole. -/
def angleLayout : Decimal.Layout := ⟨fun _ => true, [], .up⟩

def angleText (x : Float) : String :=
  if x.isNaN then "NaN"
  else if x.isInf then (if Decimal.isNegative x then "-inf" else "inf")
  else (angleLayout.numeral x).text

/-- Both zeros are one angle. An angle that is no number is one with itself only. -/
def sameAngle (x y : Float) : Bool := x == y || x.toBits == y.toBits

theorem sameAngle_self (x : Float) : sameAngle x x = true := by simp [sameAngle]

/-! ## Doubles in JSON -/

/-- In JSON a double has the fewest digits that read back. A whole one ends in a zero after the
point, and an exponent stands from `1e16` on and below `1e-5`. -/
def jsonLayout : Decimal.Layout := ⟨fun place => -4 ≤ place && place ≤ 16, [.last 0], .even⟩

/-- The greatest significand that is kept. -/
def maxSignificand : Nat := 18446744073709551615

/-- Drops digits at the end until the significand is small enough; counts them. -/
def shorten (n dropped : Nat) : Nat × Nat :=
  if n ≤ maxSignificand then (n, dropped) else shorten (n / 10) (dropped + 1)
termination_by n
decreasing_by
  have : 0 < maxSignificand := by decide
  omega

/-- Takes fraction digits into a significand while it stays small enough; counts those taken. -/
def takeFraction (n taken : Nat) : List Decimal.Digit → Nat × Nat
  | [] => (n, taken)
  | d :: ds =>
    if 10 * n + d.val ≤ maxSignificand then takeFraction (10 * n + d.val) (taken + 1) ds
    else (n, taken)

/-- A power of ten from 0 to 308. -/
def tenPower (k : Nat) : Float := Float.ofScientific 1 false k

/-- `x * 10 ^ -k`. Large powers are divided out in parts of 308 until nothing is left; a significand
is gone after three. -/
def divideOut : (fuel : Nat) → Float → Nat → Float
  | 0, x, _ => x
  | fuel + 1, x, k =>
    if k ≤ 308 then x / tenPower k
    else if x == 0 then x
    else divideOut fuel (x / tenPower 308) (k - 308)

/-- `n * 10 ^ exponent` in one multiplication or division, unless it is too large. -/
def scaled? (n : Nat) (exponent : Int) : Option Float :=
  let x := (UInt64.ofNat n).toFloat
  match exponent with
  | .ofNat k =>
    if 308 < k then (if n = 0 then some x else none)
    else
      let y := x * tenPower k
      if y.isInf then none else some y
  | .negSucc k => some (divideOut 8 x (k + 1))

/-- The greatest exponent that is read. -/
def maxExponent : Nat := 2147483647

/-- The magnitude of a numeral. A significand of 64 bits is kept: further digits of the whole part
count as zeros, further digits of the fraction not at all. -/
def magnitude? (n : Decimal.Numeral) : Option Float :=
  let (whole, dropped) := shorten n.whole 0
  let (significand, taken) := takeFraction whole 0 n.fraction
  let exponent := n.exponent.getD 0
  if exponent.natAbs ≤ maxExponent then scaled? significand (exponent + dropped - taken)
  else if 0 < exponent && significand ≠ 0 then none
  else some 0

/-- The double that a numeral is read as, unless it is too large. -/
def ofNumeral? (n : Decimal.Numeral) : Option Float :=
  (magnitude? n).map fun x => if n.negative then -x else x

end Double

instance : Angle Float where
  beq := Double.sameAngle
  rfl {x} := Double.sameAngle_self x
  times t n := t * Float.ofInt n
  text := Double.angleText

instance : AngleJson Float where
  numeral? x := if x.isFinite then some (Double.jsonLayout.numeral x) else none
  ofNumeral? := Double.ofNumeral?

/-! ## Complex numbers -/

/-- A complex number in two doubles. -/
structure Complex where
  re : Float
  im : Float

namespace Complex

instance : Inhabited Complex := ⟨⟨0, 0⟩⟩
instance : BEq Complex := ⟨fun z w => Double.sameAngle z.re w.re && Double.sameAngle z.im w.im⟩

/-- The number of modulus one with this argument. -/
def unit (t : Float) : Complex := ⟨t.cos, t.sin⟩

/-- A sum with one more product. Each part of the product is itself two products, which are added
one after another, that with the real part of `z` first, and rounded once each. -/
def addProduct (sum z w : Complex) : Complex :=
  ⟨Double.mulAdd (-z.im) w.im (Double.mulAdd z.re w.re sum.re),
    Double.mulAdd z.im w.re (Double.mulAdd z.re w.im sum.im)⟩

instance : Amplitude Complex where
  zero := ⟨0, 0⟩
  one := ⟨1, 0⟩
  add z w := ⟨z.re + w.re, z.im + w.im⟩
  mul z w := ⟨z.re * w.re - z.im * w.im, z.re * w.im + z.im * w.re⟩
  neg z := ⟨-z.re, -z.im⟩
  conj z := ⟨z.re, -z.im⟩
  addMul := addProduct

def quarterPi : Float := 0.785398163397448309615660845819875721

instance : Rotation Float Complex where
  imaginary := ⟨0, 1⟩
  halfRoot := ⟨0.707106781186547524400844362104849039, 0⟩
  eighth := unit quarterPi
  eighthBack := unit (-quarterPi)
  phase := unit
  halfPhase t := unit (t / 2)
  halfPhaseBack t := unit (-t / 2)
  halfCos t := ⟨(t / 2).cos, 0⟩
  halfSin t := ⟨(t / 2).sin, 0⟩
  halfSinTurned t := ⟨0, -(t / 2).sin⟩

end Complex
end BloqCircuit
