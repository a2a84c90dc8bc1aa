import BloqCircuit.Matrix
/-! Standard gates, with their inverses, powers, matrices and wire labels. -/
namespace BloqCircuit

inductive StandardGate (α : Type) where
  | i
  | x
  | y
  | z
  | h
  | s
  | sdg
  | t
  | tdg
  | rx (angle : α)
  | ry (angle : α)
  | rz (angle : α)
  | cx
  | cz
  | swap
  | ccx
  | cswap
  /-- Sets a qubit to zero. It has no matrix. -/
  | reset
  /-- A phase on no qubit at all. -/
  | globalPhase (angle : α)
deriving DecidableEq, Repr

namespace StandardGate
variable {α κ : Type}

/-- Gates are the same if they are of one sort and their angles are the same. -/
def same [BEq α] : StandardGate α → StandardGate α → Bool
  | rx a, rx b => a == b
  | ry a, ry b => a == b
  | rz a, rz b => a == b
  | globalPhase a, globalPhase b => a == b
  | i, i | x, x | y, y | z, z | h, h | s, s | sdg, sdg | t, t | tdg, tdg => true
  | cx, cx | cz, cz | swap, swap | ccx, ccx | cswap, cswap | reset, reset => true
  | _, _ => false

instance [BEq α] : BEq (StandardGate α) := ⟨same⟩

instance [BEq α] [ReflBEq α] : ReflBEq (StandardGate α) where
  rfl {g} := by
    change g.same g = true
    cases g <;> simp [same]

def name : StandardGate α → String
  | i => "id"
  | x => "x"
  | y => "y"
  | z => "z"
  | h => "h"
  | s => "s"
  | sdg => "sdg"
  | t => "t"
  | tdg => "tdg"
  | rx _ => "rx"
  | ry _ => "ry"
  | rz _ => "rz"
  | cx => "cx"
  | cz => "cz"
  | swap => "swap"
  | ccx => "ccx"
  | cswap => "cswap"
  | reset => "reset"
  | globalPhase _ => "gphase"

def angle? : StandardGate α → Option α
  | rx a | ry a | rz a | globalPhase a => some a
  | _ => none

/-- The name, with the angle in parentheses. -/
def text [Angle α] (g : StandardGate α) : String :=
  match g.angle? with
  | some a => g.name ++ "(" ++ Angle.text a ++ ")"
  | none => g.name

def arity : StandardGate α → Nat
  | globalPhase _ => 0
  | cx | cz | swap => 2
  | ccx | cswap => 3
  | _ => 1

def isSelfInverse : StandardGate α → Bool
  | i | x | y | z | h | cx | cz | swap | ccx | cswap => true
  | _ => false

/-- The inverse; a reset has none. -/
def inverse? [Neg α] : StandardGate α → Option (StandardGate α)
  | s => some sdg
  | sdg => some s
  | t => some tdg
  | tdg => some t
  | rx a => some (rx (-a))
  | ry a => some (ry (-a))
  | rz a => some (rz (-a))
  | globalPhase a => some (globalPhase (-a))
  | reset => none
  | g => some g

/-- The power, where a standard gate expresses it: rotations scale their angle, and a gate that is
its own inverse is its own odd powers. -/
def power? [Angle α] (g : StandardGate α) (n : Int) : Option (StandardGate α) :=
  if n = 1 then some g
  else if n = -1 then g.inverse?
  else match g with
    | rx a => some (rx (Angle.times a n))
    | ry a => some (ry (Angle.times a n))
    | rz a => some (rz (Angle.times a n))
    | globalPhase a => some (globalPhase (Angle.times a n))
    | g => if g.isSelfInverse && n % 2 ≠ 0 then some g else none

/-- One label for each wire the gate touches. -/
def symbols [Angle α] : StandardGate α → List String
  | i => ["ID"]
  | x => ["X"]
  | y => ["Y"]
  | z => ["Z"]
  | h => ["H"]
  | s => ["S"]
  | t => ["T"]
  | sdg => ["S^-1"]
  | tdg => ["T^-1"]
  | rx a => ["Rx(" ++ Angle.text a ++ ")"]
  | ry a => ["Ry(" ++ Angle.text a ++ ")"]
  | rz a => ["Rz(" ++ Angle.text a ++ ")"]
  | cx => ["@", "X"]
  | cz => ["@", "@"]
  | swap => ["×", "×"]
  | ccx => ["@", "@", "X"]
  | cswap => ["@", "×", "×"]
  | reset => ["R"]
  | globalPhase _ => []

/-- The matrix. The first operand is the most significant bit. -/
def matrix? [Amplitude κ] [Rotation α κ] : StandardGate α → Option (DenseMatrix κ)
  | i => some (.square 2 [1, 0, 0, 1])
  | x => some (.square 2 [0, 1, 1, 0])
  | y =>
    let u : κ := Rotation.imaginary α
    some (.square 2 [0, -u, u, 0])
  | z => some (.square 2 [1, 0, 0, -1])
  | h =>
    let r : κ := Rotation.halfRoot α
    some (.square 2 [r, r, r, -r])
  | s => some (.square 2 [1, 0, 0, Rotation.imaginary α])
  | sdg => some (.square 2 [1, 0, 0, -Rotation.imaginary α])
  | t => some (.square 2 [1, 0, 0, Rotation.eighth α])
  | tdg => some (.square 2 [1, 0, 0, Rotation.eighthBack α])
  | rx a =>
    let c : κ := Rotation.halfCos a
    let u : κ := Rotation.halfSinTurned a
    some (.square 2 [c, u, u, c])
  | ry a =>
    let c : κ := Rotation.halfCos a
    let u : κ := Rotation.halfSin a
    some (.square 2 [c, -u, u, c])
  | rz a => some (.square 2 [Rotation.halfPhaseBack a, 0, 0, Rotation.halfPhase a])
  | cx => some (.exchange 4 2 3)
  | cz => some (.ofFn 4 4 fun r c => if r = c then (if r = 3 then -1 else 1) else 0)
  | swap => some (.exchange 4 1 2)
  | ccx => some (.exchange 8 6 7)
  | cswap => some (.exchange 8 5 6)
  | reset => none
  | globalPhase a => some (.square 1 [Rotation.phase a])

end StandardGate
end BloqCircuit
