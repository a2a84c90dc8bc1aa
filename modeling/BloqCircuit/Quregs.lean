import BloqCircuit.Arrays
import BloqCircuit.Signature
import BloqCircuit.Allocator
/-! Registers on qubits. A register of shape `s` and bitsize `b` is carried on a qubit array of
shape `s ++ [b]`; the qubits of one element form a lane of that array. -/
namespace BloqCircuit

/-- Qubit arrays by register name. -/
abbrev Quregs := Arrays Qubit

namespace Register

/-- The array has the shape that carries the register. -/
def checkArray (r : Register) (g : Grid Qubit) : Except Error Unit :=
  if g.shape = r.qubitShape then .ok ()
  else .error (.shapeMismatch r.name r.qubitShape g.shape)

/-- The array that carries the register on qubits listed in row-major order. -/
def arrayOf (r : Register) (qubits : List Qubit) : Except Error (Grid Qubit) :=
  match Grid.ofCells? r.qubitShape qubits with
  | some g => .ok g
  | none => .error (.qubitCount r.totalBits qubits.length)

/-- The array of the register in a map, with its shape checked. -/
def arrayIn (r : Register) (q : Quregs) : Except Error (Grid Qubit) :=
  match q.get? r.name with
  | none => .error (.missingQuregs r.name)
  | some g => do
    r.checkArray g
    return g

/-- The qubits of one element. -/
def lane (r : Register) (g : Grid Qubit) (index : List Nat) : List Qubit :=
  (List.range r.bitsize).filterMap fun b => g.get? (index ++ [b])

/-- The name of one bit of the register: its register name, with the index of the element and of
the bit in brackets. The index of a single bit is left out, and so are empty brackets. -/
def bitName (r : Register) (index : List Nat) : String :=
  let index := if r.bitsize = 1 then index.dropLast else index
  if index.isEmpty then r.name else r.name ++ bracketed index

/-- The register on qubits named after it. -/
def namedArray (r : Register) : Grid Qubit :=
  Grid.ofFn r.qubitShape fun index => .named (r.bitName index)

end Register

namespace Quregs

/-- The qubits of the registers one after another, each array in row-major order. -/
def merge (q : Quregs) (registers : List Register) : Except Error (List Qubit) := do
  let parts ← registers.mapM fun r => do
    let g ← r.arrayIn q
    return g.toList
  return parts.flatten

/-- Cuts a list of qubits into arrays for the registers. -/
def cut : List Register → List Qubit → Except Error (List (String × Grid Qubit))
  | [], _ => .ok []
  | r :: rest, qubits => do
    let g ← r.arrayOf (qubits.take r.totalBits)
    let more ← cut rest (qubits.drop r.totalBits)
    return (r.name, g) :: more

/-- A flat list of qubits as arrays for all registers of a signature, which must not repeat a
name. -/
def split (s : Signature) (qubits : List Qubit) : Except Error Quregs :=
  match s.repeatedName? with
  | some name => .error (.duplicateRegister name)
  | none =>
    if qubits.length ≠ s.totalBits then .error (.qubitCount s.totalBits qubits.length)
    else (cut s.registers qubits).map Arrays.ofList

/-- The registers on qubits named after them. -/
def named (registers : List Register) : Quregs :=
  Arrays.ofList (registers.map fun r => (r.name, r.namedArray))

/-- Arrays for all registers of a signature and for its outputs. Outputs that are not inputs get
fresh qubits; all others come from `given`. -/
def complete {σ : Type} [Allocator σ] (given : Quregs) :
    List Register → Quregs → Quregs → AllocM σ (Quregs × Quregs)
  | [], all, out => return (all, out)
  | r :: rest, all, out => do
    let g ← match r.side with
      | .right => do
        let qubits ← (Allocator.alloc r.totalBits : StateM σ (List Qubit))
        r.arrayOf qubits
      | _ => r.arrayIn given
    complete given rest (all.insert r.name g) (if r.side.isRight then out.insert r.name g else out)

end Quregs

/-- A bundle of qubits with the type it carries. Bundles are told apart by their qubits alone. -/
structure QubitBundle where
  qubits : List Qubit
  dtype : DataType

namespace QubitBundle

instance : BEq QubitBundle := ⟨fun a b => a.qubits == b.qubits⟩

def text (b : QubitBundle) : String :=
  "QReg([" ++ ", ".intercalate (b.qubits.map Qubit.text) ++ "], " ++ b.dtype.text ++ ")"

end QubitBundle
end BloqCircuit
