import BloqCircuit.Scalar
/-! Dense matrices in row-major order. -/
namespace BloqCircuit

structure DenseMatrix (κ : Type) where
  rows : Nat
  cols : Nat
  entries : Array κ
  size_entries : entries.size = rows * cols

namespace DenseMatrix
variable {κ : Type}

instance [BEq κ] : BEq (DenseMatrix κ) where
  beq m n := m.rows == n.rows && m.cols == n.cols && m.entries == n.entries

/-- The matrix whose entry in row `r` and column `c` is `f r c`. -/
def ofFn (rows cols : Nat) (f : Nat → Nat → κ) : DenseMatrix κ where
  rows := rows
  cols := cols
  entries := Array.ofFn fun k : Fin (rows * cols) => f (k / cols) (k % cols)
  size_entries := Array.size_ofFn

section
variable [Zero κ]

/-- The entry in row `r` and column `c`; zero outside the matrix. -/
@[specialize] def get (m : DenseMatrix κ) (r c : Nat) : κ :=
  if c < m.cols then m.entries.getD (r * m.cols + c) 0 else 0

/-- A square matrix from its rows written one after another. -/
def square (n : Nat) (entries : List κ) : DenseMatrix κ :=
  ofFn n n fun r c => entries.getD (r * n + c) 0

variable [One κ]

def identity (n : Nat) : DenseMatrix κ := ofFn n n fun r c => if r = c then 1 else 0

/-- The permutation matrix that exchanges basis states `a` and `b`. -/
def exchange (n a b : Nat) : DenseMatrix κ :=
  ofFn n n fun r c =>
    if r = a then (if c = b then 1 else 0)
    else if r = b then (if c = a then 1 else 0)
    else if r = c then 1 else 0

/-- The first basis state as a column of length `n`. -/
def firstColumn (n : Nat) : DenseMatrix κ := ofFn n 1 fun r _ => if r = 0 then 1 else 0

/-- The first basis state as a row of length `n`. -/
def firstRow (n : Nat) : DenseMatrix κ := ofFn 1 n fun _ c => if c = 0 then 1 else 0
end

variable [Amplitude κ]

/-- The matrix product; the inner dimension is the left factor's. Each sum is scaled by one. That
changes nothing in a ring; over doubles a sum with an infinite part becomes one that is no number. -/
def mul (m n : DenseMatrix κ) : DenseMatrix κ :=
  ofFn m.rows n.cols fun r c => 1 * productsBelow m.cols (m.get r) (n.get · c)

/-- The conjugate transpose. -/
def adjoint (m : DenseMatrix κ) : DenseMatrix κ :=
  ofFn m.cols m.rows fun r c => Amplitude.conj (m.get c r)

/-- `result * square ^ exponent` by repeated squaring. -/
def powInto (result square : DenseMatrix κ) (exponent : Nat) : DenseMatrix κ :=
  if h : exponent = 0 then result
  else
    let result := if exponent % 2 = 1 then result.mul square else result
    let square := if exponent / 2 = 0 then square else square.mul square
    powInto result square (exponent / 2)
termination_by exponent
decreasing_by exact Nat.div_lt_self (Nat.pos_of_ne_zero h) (by decide)

/-- The matrix to a natural power. -/
def pow (m : DenseMatrix κ) (exponent : Nat) : DenseMatrix κ :=
  powInto (identity m.rows) m exponent

end DenseMatrix
end BloqCircuit
