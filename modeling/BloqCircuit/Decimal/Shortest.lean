/-! Shortest decimals. A double is decoded exactly, and the decimal with the fewest digits
that reads back as the same double is found on the grids of one, two, ... digits. -/
namespace BloqCircuit.Decimal

/-- A positive double as `mantissa * 2 ^ exponent`. `narrow` marks a power of two, below which
doubles lie half as far apart as above it. -/
structure Binary where
  mantissa : Nat
  exponent : Int
  narrow : Bool

/-- The finite magnitude with these bits. Subnormals have no hidden bit. -/
def Binary.ofBits (bits : UInt64) : Binary :=
  let field := ((bits >>> 52) &&& 0x7ff).toNat
  let fraction := (bits &&& 0xfffffffffffff).toNat
  if field = 0 then ⟨fraction, -1074, false⟩
  else ⟨fraction + 0x10000000000000, (field : Int) - 1075, fraction = 0 && field ≠ 1⟩

/-- `n` as a count of units of `base ^ exponent`, numerator first, denominator second. -/
def ratio (n base : Nat) (exponent : Int) : Nat × Nat :=
  match exponent with
  | .ofNat e => (n * Nat.pow base e, 1)
  | .negSucc e => (n, Nat.pow base (e + 1))

/-- A decimal: `digits * 10 ^ exponent`. -/
structure Scaled where
  digits : Nat
  exponent : Int
deriving DecidableEq, Repr

def digitCount (n : Nat) : Nat := (Nat.toDigits 10 n).length

/-- The place of the leading digit of `num / den`: the greatest `k` with `10 ^ k` at most that. -/
def leadingPlace (num den : Nat) : Int :=
  if den ≤ num then (digitCount (num / den) : Int) - 1
  else -(digitCount ((den + num - 1) / num - 1) : Int)

/-- Which way an exact tie between two shortest decimals goes. -/
inductive Tie where
  | up
  | even
deriving DecidableEq, Repr

/-- A quarter of the last binary place, counted in units of the grid `10 ^ exponent`: numerator
first, denominator second. -/
def Binary.quarter (b : Binary) (exponent : Int) : Nat × Nat :=
  let (two, den) := ratio 1 2 (b.exponent - 2)
  let (one, ten) := ratio 1 10 (-exponent)
  (two * one, den * ten)

/-- A point of the grid lies in the interval of reals that read back as the value; the ends of that
interval belong to it exactly when the mantissa is even. -/
def Binary.hits (b : Binary) (exponent : Int) (c : Nat) : Bool :=
  let (quarter, unit) := b.quarter exponent
  let low := (if b.narrow then 4 * b.mantissa - 1 else 4 * b.mantissa - 2) * quarter
  let high := (4 * b.mantissa + 2) * quarter
  if b.mantissa % 2 = 0 then low ≤ c * unit && c * unit ≤ high
  else low < c * unit && c * unit < high

/-- The greatest point of the grid that is at most the value. -/
def Binary.floor (b : Binary) (exponent : Int) : Nat :=
  let (quarter, unit) := b.quarter exponent
  4 * b.mantissa * quarter / unit

/-- The neighbour of the value on the grid that is nearer to it. -/
def Binary.nearer (b : Binary) (tie : Tie) (exponent : Int) : Nat :=
  let (quarter, unit) := b.quarter exponent
  let floor := b.floor exponent
  let rest := 4 * b.mantissa * quarter % unit
  if 2 * rest < unit then floor
  else if unit < 2 * rest then floor + 1
  else match tie with
    | .up => floor + 1
    | .even => if floor % 2 = 0 then floor else floor + 1

/-- The nearest hit on the grid `10 ^ exponent` among the two neighbours of the value. -/
def Binary.onGrid? (b : Binary) (tie : Tie) (exponent : Int) : Option Nat :=
  let floor := b.floor exponent
  match b.hits exponent floor, b.hits exponent (floor + 1) with
  | true, true => some (b.nearer tie exponent)
  | true, false => some floor
  | false, true => some (floor + 1)
  | false, false => none

/-- Drops trailing zeros of the digits. -/
def Scaled.trim : (fuel : Nat) → Scaled → Scaled
  | 0, s => s
  | fuel + 1, s =>
    if s.digits % 10 = 0 && s.digits ≠ 0 then trim fuel ⟨s.digits / 10, s.exponent + 1⟩ else s

/-- Tries grids of `count`, `count + 1`, ... digits, `fuel` of them. -/
def Binary.search (b : Binary) (tie : Tie) (place : Int) : (fuel count : Nat) → Scaled
  | 0, _ => ⟨b.mantissa, b.exponent⟩
  | fuel + 1, count =>
    let exponent := place - count + 1
    match b.onGrid? tie exponent with
    | some c => Scaled.trim 20 ⟨c, exponent⟩
    | none => b.search tie place fuel (count + 1)

/-- The shortest decimal that reads back as the magnitude; of several the nearest. Seventeen digits
always suffice. -/
def Binary.shortest (b : Binary) (tie : Tie) : Scaled :=
  if b.mantissa = 0 then ⟨0, 0⟩
  else
    let (num, _) := ratio b.mantissa 2 b.exponent
    let (_, den) := ratio b.mantissa 2 b.exponent
    b.search tie (leadingPlace num den) 17 1

end BloqCircuit.Decimal
