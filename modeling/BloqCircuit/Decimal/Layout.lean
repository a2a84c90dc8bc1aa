import BloqCircuit.Decimal.Shortest
/-! Decimal text. A numeral is a decimal as it is written; a layout says which numeral stands for a
double; `fixed` writes a set number of places. -/
namespace BloqCircuit.Decimal

/-- A decimal digit. -/
abbrev Digit := Fin 10

/-- The last digit of a number. -/
def Digit.last (n : Nat) : Digit := ⟨n % 10, Nat.mod_lt n (by decide)⟩

/-- A decimal as it is written: sign, whole part, fraction digits, power of ten. -/
structure Numeral where
  negative : Bool
  whole : Nat
  fraction : List Digit := []
  exponent : Option Int := none
deriving DecidableEq, Repr, Inhabited

/-- Whether neither a point nor an exponent is written. -/
def Numeral.isInteger (n : Numeral) : Bool := n.fraction.isEmpty && n.exponent.isNone

/-- The sign of a power of ten is always written. -/
def exponentText (e : Int) : String :=
  "e" ++ (if e < 0 then "-" else "+") ++ toString e.natAbs

def Digit.char (d : Digit) : Char := Nat.digitChar d.val

def Numeral.text (n : Numeral) : String :=
  (if n.negative then "-" else "") ++ toString n.whole
    ++ (if n.fraction.isEmpty then "" else "." ++ String.ofList (n.fraction.map Digit.char))
    ++ (match n.exponent with
      | none => ""
      | some e => exponentText e)

/-- The last `count` digits of a number, with zeros in front if it has fewer. -/
def lastDigits : (count : Nat) → Nat → List Digit
  | 0, _ => []
  | count + 1, n => lastDigits count (n / 10) ++ [Digit.last n]

/-- How shortest digits are laid out. The place of the point is counted from before the first
digit: `12.5` has it at 2, `0.05` at -1. -/
structure Layout where
  /-- The places of the point that are written without an exponent. -/
  isPositional : Int → Bool
  /-- The fraction digits of a whole number. -/
  wholeFraction : List Digit
  /-- Which way a tie between two shortest decimals goes. -/
  tie : Tie

/-- A decimal written without an exponent. -/
def Layout.positional (l : Layout) (negative : Bool) (s : Scaled) : Numeral :=
  match s.exponent with
  | .ofNat e => { negative, whole := s.digits * Nat.pow 10 e, fraction := l.wholeFraction }
  | .negSucc e =>
    let places := e + 1
    { negative, whole := s.digits / Nat.pow 10 places, fraction := lastDigits places s.digits }

/-- A decimal written with one digit before the point and an exponent. -/
def Layout.scientific (negative : Bool) (s : Scaled) : Numeral :=
  let more := digitCount s.digits - 1
  { negative, whole := s.digits / Nat.pow 10 more, fraction := lastDigits more s.digits,
    exponent := some (s.exponent + more) }

def Layout.magnitude (l : Layout) (negative : Bool) (s : Scaled) : Numeral :=
  if s.digits = 0 then { negative, whole := 0, fraction := l.wholeFraction }
  else if l.isPositional (digitCount s.digits + s.exponent) then l.positional negative s
  else Layout.scientific negative s

def isNegative (x : Float) : Bool := (x.toBits >>> 63) = 1

/-- The numeral of a finite double. Zero keeps its sign. -/
def Layout.numeral (l : Layout) (x : Float) : Numeral :=
  l.magnitude (isNegative x) ((Binary.ofBits x.toBits).shortest l.tie)

/-- The nearest multiple of `10 ^ -places`, counted in that unit; a tie goes to the even one. -/
def roundPlaces (places : Nat) (b : Binary) : Nat :=
  let (num, den) := ratio b.mantissa 2 b.exponent
  let scaled := num * Nat.pow 10 places
  let floor := scaled / den
  let twice := 2 * (scaled % den)
  if twice < den || (twice = den && floor % 2 = 0) then floor else floor + 1

/-- A double to a set number of places. A value that rounds to zero has no sign. -/
def fixed (places : Nat) (x : Float) : String :=
  if x.isNaN then "NaN"
  else if x.isInf then (if isNegative x then "-inf" else "inf")
  else
    let units := roundPlaces places (Binary.ofBits x.toBits)
    Numeral.text
      { negative := isNegative x && units ≠ 0, whole := units / Nat.pow 10 places,
        fraction := lastDigits places units }

end BloqCircuit.Decimal
