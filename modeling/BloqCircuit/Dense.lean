import BloqCircuit.Matrix
import BloqCircuit.Operation
import BloqCircuit.Allocator
/-! Dense evaluation of circuits. Gates without a matrix are decomposed; qubits that are no input
start in zero, and qubits that are no output are projected onto zero. -/
namespace BloqCircuit

/-- What dense evaluation asks of a kind of gates. -/
structure GateMeaning (γ κ : Type) where
  /-- The matrix, if the gate has one of its own. The first operand is the most significant bit. -/
  unitary : γ → Except Error (Option (DenseMatrix κ))
  /-- The operations that the gate stands for on given qubits, if it has a decomposition. -/
  decompose : γ → List Qubit → AllocM CleanPool (Option (List (Operation γ)))

/-- The most qubits that are evaluated densely. -/
def maxDenseQubits : Nat := 14

/-- The greatest depth of an operation in a decomposition. -/
def maxDecompositionDepth : Nat := 64

namespace Dense
variable {γ κ : Type}

/-- The exponent of two in a number; that of zero counts as a full word. -/
def trailingZeros (n : Nat) : Nat :=
  if n = 0 then 64 else ((List.range 64).find? fun k => n.testBit k).getD 64

/-- A matrix on qubits. -/
structure Leaf (κ : Type) where
  matrix : DenseMatrix κ
  qubits : List Qubit

section
variable [GateKind γ]

/-- A gate's own matrix on the qubits of an operation. -/
def leafOf (op : Operation γ) (m : DenseMatrix κ) : Except Error (Leaf κ) :=
  if m.rows = basisSize op.qubits.length ∧ m.cols = basisSize op.qubits.length then
    .ok ⟨m, op.qubits⟩
  else .error
    (.qubitCountMismatch (GateKind.name op.gate) (trailingZeros m.rows) op.qubits.length)

/-- The matrices of operations from left to right. `levels` is how many levels of the decomposition
are still allowed, this one included. -/
def leaves (meaning : GateMeaning γ κ) :
    (levels : Nat) → List (Operation γ) → AllocM CleanPool (List (Leaf κ))
  | 0, ops => match ops with
    | [] => return []
    | op :: _ => throw (.decompositionDepth (GateKind.name op.gate))
  | levels + 1, ops => do
    let parts ← ops.mapM fun op => do
      match ← meaning.unitary op.gate with
      | some m => return [← leafOf op m]
      | none => match ← meaning.decompose op.gate op.qubits with
        | some inner => leaves meaning levels inner
        | none => throw (.noUnitary (GateKind.name op.gate))
    return parts.flatten
end

/-- The bits of a number at given places, the first place the most significant. -/
def gatherBits (places : List Nat) (n : Nat) : Nat :=
  places.foldl (fun acc p => 2 * acc + if n.testBit p then 1 else 0) 0

/-- The number whose bits at the given places are those of `n`, the first place taking the most
significant one, and zero elsewhere. -/
def spreadBits (places : List Nat) (n : Nat) : Nat :=
  (places.zipIdx.foldl (fun acc p =>
    if n.testBit (places.length - 1 - p.2) then acc ||| (1 <<< p.1) else acc) 0)

/-- For each number, the index with its bits at the given places and zeros elsewhere. -/
def spreadTable (places : List Nat) : Array Nat :=
  Array.ofFn fun n : Fin (basisSize places.length) => spreadBits places n

/-- Where some bits lie in the indices of a state. -/
structure Placement where
  /-- For each number of these bits, the index that has them alone. -/
  offsets : Array Nat
  /-- For each index, the index without these bits. -/
  bases : Array Nat
  /-- For each index, the number of these bits. -/
  numbers : Array Nat

/-- The given places in the indices below `size`. -/
def Placement.ofPlaces (size : Nat) (places : List Nat) : Placement where
  offsets := spreadTable places
  bases :=
    let mask := places.foldl (fun acc p => acc ||| (1 <<< p)) 0
    Array.ofFn fun k : Fin size => k.val - (k.val &&& mask)
  numbers := Array.ofFn fun k : Fin size => gatherBits places k

/-- A matrix on some bits of a state; on the other bits it is the identity. -/
@[specialize] def applyAt [Amplitude κ] (m : DenseMatrix κ) (p : Placement) (state : Array κ) :
    Array κ :=
  Array.ofFn fun k : Fin state.size =>
    let base := p.bases.getD k 0
    let r := p.numbers.getD k 0
    sumBelow p.offsets.size fun c => m.get r c * state.getD (base ||| p.offsets.getD c 0) 0

/-- The basis state with this number. -/
@[specialize] def basisState [Amplitude κ] (size index : Nat) : Array κ :=
  Array.ofFn fun k : Fin size => if k.val = index then 1 else 0

/-- The matrix of leaves on ordered qubits, of which the first `inputs` are inputs, onto the bits
at the given places. -/
@[specialize] def evaluate [Amplitude κ] (order : List Qubit) (inputs : Nat)
    (outPlaces : List Nat) (leaves : List (Leaf κ)) : DenseMatrix κ :=
  let n := order.length
  let placed := leaves.map fun l =>
    (l.matrix, Placement.ofPlaces (basisSize n) (l.qubits.map fun q => n - 1 - order.idxOf q))
  let outputs := spreadTable outPlaces
  let column (c : Nat) : Array κ :=
    let state := placed.foldl (fun state l => applyAt l.1 l.2 state)
      (basisState (basisSize n) (c <<< (n - inputs)))
    outputs.map fun k => state.getD k 0
  let columns := ((List.range (basisSize inputs)).map column).toArray
  .ofFn (basisSize outPlaces.length) (basisSize inputs) fun r c => (columns.getD c #[]).getD r 0

/-- The matrix of operations from the basis of `inputs` to the basis of `outputs`. The first qubit
of each list is the most significant bit. -/
@[specialize] def between [GateKind γ] [Amplitude κ] (meaning : GateMeaning γ κ) (ops : List (Operation γ))
    (inputs outputs : List Qubit) : Except Error (DenseMatrix κ) := do
  let leaves ← ((leaves meaning (maxDecompositionDepth + 1) ops).run {}).1
  let order := firstUses (inputs ++ outputs ++ leaves.flatMap Leaf.qubits)
  if maxDenseQubits < order.length then
    throw (.tooManyQubits order.length maxDenseQubits)
  let places := outputs.map fun q => order.length - 1 - order.idxOf q
  return evaluate order inputs.length places leaves

end Dense
end BloqCircuit
