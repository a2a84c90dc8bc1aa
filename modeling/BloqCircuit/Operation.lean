import BloqCircuit.Error
import Std.Data.ExtTreeMap
/-! Operations: gates applied to qubits. -/
namespace BloqCircuit

/-- What operations ask of a kind of gates. -/
class GateKind (γ : Type) extends BEq γ where
  name : γ → String
  text : γ → String
  arity : γ → Nat

/-- A gate on an ordered list of qubits. -/
structure Operation (γ : Type) where
  gate : γ
  qubits : List Qubit

namespace Operation
variable {γ : Type}

instance [BEq γ] : BEq (Operation γ) where
  beq a b := a.qubits == b.qubits && a.gate == b.gate

/-- Applies a gate to as many qubits as it takes, no two the same. -/
def make [GateKind γ] (gate : γ) (qubits : List Qubit) : Except Error (Operation γ) :=
  if qubits.length ≠ GateKind.arity gate then
    .error (.qubitCountMismatch (GateKind.name gate) (GateKind.arity gate) qubits.length)
  else match firstRepeat ∅ qubits with
    | some q => .error (.duplicateQubit q (GateKind.name gate))
    | none => .ok ⟨gate, qubits⟩

/-- The same gate on renamed qubits. Nothing is checked. -/
def map (f : Qubit → Qubit) (op : Operation γ) : Operation γ := ⟨op.gate, op.qubits.map f⟩

def text [GateKind γ] (op : Operation γ) : String :=
  GateKind.text op.gate ++ "(" ++ ", ".intercalate (op.qubits.map Qubit.text) ++ ")"

end Operation

/-- A flat list of operations. There are no registers; each operation names its qubits. -/
structure Circuit (γ : Type) where
  operations : List (Operation γ)

namespace Circuit
variable {γ : Type}

instance [BEq γ] : BEq (Circuit γ) := ⟨fun a b => a.operations == b.operations⟩

def push (c : Circuit γ) (op : Operation γ) : Circuit γ := ⟨c.operations ++ [op]⟩

def extend (c : Circuit γ) (ops : List (Operation γ)) : Circuit γ := ⟨c.operations ++ ops⟩

def length (c : Circuit γ) : Nat := c.operations.length

/-- Every qubit of the circuit, in order of first use. -/
def qubits (c : Circuit γ) : List Qubit := firstUses (c.operations.flatMap (·.qubits))

def map (f : Qubit → Qubit) (c : Circuit γ) : Circuit γ := ⟨c.operations.map (Operation.map f)⟩

/-- One operation on each line. -/
def text [GateKind γ] (c : Circuit γ) : String :=
  String.join (c.operations.map fun op => op.text ++ "\n")

end Circuit

/-- A renaming of qubits. Those that it does not mention keep their names. -/
abbrev Renaming := Std.ExtTreeMap Qubit Qubit

namespace Renaming

/-- Of several pairs for one qubit the last counts. -/
def ofPairs (pairs : List (Qubit × Qubit)) : Renaming := .ofList pairs

def rename (r : Renaming) (q : Qubit) : Qubit := r.getD q q

end Renaming
end BloqCircuit
