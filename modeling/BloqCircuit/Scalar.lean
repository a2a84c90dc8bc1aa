/-! The numbers a circuit is made of. Angles parametrise rotations; amplitudes fill matrices. Both
are left open, so that a circuit can be read over doubles, over the reals, or over any ring. -/
namespace BloqCircuit

/-- Angles, in radians. -/
class Angle (α : Type) extends BEq α, ReflBEq α, Neg α where
  /-- The angle taken an integral number of times. -/
  times : α → Int → α
  /-- The angle's text in the name of a gate. -/
  text : α → String

/-- Amplitudes: a ring with a conjugation. -/
class Amplitude (κ : Type) extends Zero κ, One κ, Add κ, Mul κ, Neg κ where
  conj : κ → κ
  /-- A sum with one more product. Where sums are rounded, the parts of the product may be added one
  after another. -/
  addMul : κ → κ → κ → κ := fun sum x y => sum + x * y

/-- The entries that occur in the matrices of standard gates. -/
class Rotation (α κ : Type) where
  imaginary : κ
  /-- One over the square root of two. -/
  halfRoot : κ
  /-- `e ^ (i * pi / 4)`. -/
  eighth : κ
  /-- `e ^ (-i * pi / 4)`. -/
  eighthBack : κ
  /-- `e ^ (i * t)`. -/
  phase : α → κ
  /-- `e ^ (i * t / 2)`. -/
  halfPhase : α → κ
  /-- `e ^ (-i * t / 2)`. -/
  halfPhaseBack : α → κ
  /-- `cos (t / 2)`. -/
  halfCos : α → κ
  /-- `sin (t / 2)`. -/
  halfSin : α → κ
  /-- `-i * sin (t / 2)`. -/
  halfSinTurned : α → κ

/-- How many basis states so many qubits have. -/
def basisSize (qubits : Nat) : Nat := Nat.pow 2 qubits

/-- The sum of `f 0, ..., f (n - 1)`, added up from the left. -/
@[specialize] def sumBelow {κ : Type} [Zero κ] [Add κ] : Nat → (Nat → κ) → κ
  | 0, _ => 0
  | n + 1, f => sumBelow n f + f n

/-- The sum of the products `f 0 * g 0, ..., f (n - 1) * g (n - 1)`, added up from the left. -/
@[specialize] def productsBelow {κ : Type} [Amplitude κ] :
    Nat → (Nat → κ) → (Nat → κ) → κ
  | 0, _, _ => 0
  | n + 1, f, g => Amplitude.addMul (productsBelow n f g) (f n) (g n)

end BloqCircuit
