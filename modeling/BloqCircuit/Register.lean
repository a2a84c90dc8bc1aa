import BloqCircuit.DataType
import BloqCircuit.Grid
import BloqCircuit.Error
/-! Registers: named, shaped and typed groups of wires. -/
namespace BloqCircuit

/-- Which boundary of a bloq a register sits on. -/
inductive Side where
  /-- Input only; the wires end at the bloq. -/
  | left
  /-- Output only; the wires start at the bloq. -/
  | right
  /-- Both an input and an output. -/
  | thru
deriving DecidableEq, Repr, Inhabited

namespace Side

def isLeft : Side → Bool
  | right => false
  | _ => true

def isRight : Side → Bool
  | left => false
  | _ => true

def adjoint : Side → Side
  | left => right
  | right => left
  | thru => thru

/-- Two registers of one name overlap if both are inputs or both are outputs. -/
def overlaps (a b : Side) : Bool := (a.isLeft && b.isLeft) || (a.isRight && b.isRight)

def code : Side → Nat
  | left => 0
  | right => 1
  | thru => 2

theorem code_injective {a b : Side} (h : a.code = b.code) : a = b := by
  cases a <;> cases b <;> simp_all [code]

instance : Ord Side := ⟨compareOn code⟩

instance : Std.TransOrd Side := inferInstanceAs (Std.TransCmp (compareOn code))

instance : Std.LawfulEqOrd Side where
  eq_of_compare h := code_injective (Std.LawfulEqOrd.eq_of_compare h)

theorem adjoint_adjoint (s : Side) : s.adjoint.adjoint = s := by cases s <;> rfl

theorem isLeft_adjoint (s : Side) : s.adjoint.isLeft = s.isRight := by cases s <;> rfl

theorem isRight_adjoint (s : Side) : s.adjoint.isRight = s.isLeft := by cases s <;> rfl

end Side

/-- A named group of wires: an array of elements, each a bundle of the same type. -/
structure Register where
  name : String
  dtype : DataType
  shape : List Nat
  side : Side
deriving DecidableEq, Repr, Inhabited

namespace Register

/-- A single element that goes through. -/
def single (name : String) (dtype : DataType) : Register := ⟨name, dtype, [], .thru⟩

def bitsize (r : Register) : Nat := r.dtype.bitsize

def numElements (r : Register) : Nat := shapeSize r.shape

def totalBits (r : Register) : Nat := r.bitsize * r.numElements

/-- Every index of an element, in row-major order. -/
def indices (r : Register) : List (List Nat) := shapeIndices r.shape

/-- The shape of the qubit array that carries the register: its own shape and then its bits. -/
def qubitShape (r : Register) : List Nat := r.shape ++ [r.bitsize]

/-- The register on the other side. -/
def adjoint (r : Register) : Register := { r with side := r.side.adjoint }

def text (r : Register) : String :=
  r.name ++ ": " ++ r.dtype.text ++ (if r.shape.isEmpty then "" else bracketed r.shape)
    ++ (match r.side with
      | .thru => ""
      | .left => " (left)"
      | .right => " (right)")

/-- Registers are ordered field by field, the name first. -/
def order : Register → Register → Ordering :=
  compareLex (compareOn name) <| compareLex (compareOn dtype) <|
    compareLex (compareOn shape) (compareOn side)

instance : Ord Register := ⟨order⟩

instance : Std.TransOrd Register := inferInstanceAs (Std.TransCmp
  (compareLex (compareOn name) (compareLex (compareOn dtype)
    (compareLex (compareOn shape) (compareOn side)))))

instance : Std.LawfulEqOrd Register where
  eq_of_compare {r s} h := by
    have h : order r s = .eq := h
    simp only [order, compareLex_eq_eq, compareOn, Std.LawfulEqOrd.compare_eq_iff_eq] at h
    cases r; cases s; simp_all

theorem adjoint_adjoint (r : Register) : r.adjoint.adjoint = r := by
  simp [adjoint, Side.adjoint_adjoint]

end Register
end BloqCircuit
