import BloqCircuit.Soquet
import BloqCircuit.Quregs
import BloqCircuit.Operation
/-! How bloqs and gates stand for each other, and the ways in which a bloq puts itself into a
circuit without being wrapped as a gate. -/
namespace BloqCircuit

/-- A native circuit form. -/
inductive Native (γ : Type) where
  /-- Carries the qubits of one register over to the shape of another. -/
  | reshape (source target : Register)
  | allocate (reg : Register)
  | free (reg : Register)
  /-- Applies a gate to the qubits of a register and hands all arrays on. -/
  | gate (g : γ) (reg : Register)
  /-- Applies a gate, if there is one and it could be made, to all qubits given, and hands arrays on
  under new names, each listed as new name and old name. -/
  | forward (g : Option (Except Error γ)) (outputs : List (String × String))

/-- What conversions ask of bloqs `β` whose circuits have gates `γ`. -/
class CircuitForm (β : Type) (γ : outParam Type) where
  /-- The native circuit form; bloqs without one are wrapped as gates. -/
  native? : β → Option (Native γ)
  /-- The bloq as a gate. Whether that makes sense is not checked. -/
  wrapped : β → γ
  /-- The bloq that an operation with this gate stands for; a wrapped bloq stands for itself. -/
  ofGate : γ → β

namespace Native
variable {γ σ : Type} [GateKind γ] [Allocator σ]

/-- Arrays under new names. -/
def forwarded (given : Quregs) : List (String × String) → Quregs → Except Error Quregs
  | [], out => .ok out
  | (name, source) :: rest, out => match given.get? source with
    | some g => forwarded given rest (out.insert name g)
    | none => .error (.unboundName source)

/-- Runs a native form on qubit arrays: the operation to emit, if any, and the output arrays. -/
def run (given : Quregs) : Native γ → AllocM σ (Option (Operation γ) × Quregs)
  | reshape source target => do
    let qubits ← given.merge [source]
    return (none, ⟨[(target.name, ← target.arrayOf qubits)]⟩)
  | allocate reg => do
    let qubits ← (Allocator.alloc reg.totalBits : StateM σ (List Qubit))
    return (none, ⟨[(reg.name, ← reg.arrayOf qubits)]⟩)
  | free reg => do
    let qubits ← given.merge [reg]
    Allocator.free qubits
    return (none, Arrays.empty)
  | gate g reg => do
    let qubits ← given.merge [reg]
    return (some (← Operation.make g qubits), given)
  | forward none outputs => do
    return (none, ← forwarded given outputs Arrays.empty)
  | forward (some g) outputs => do
    let op ← Operation.make (← g) (given.entries.flatMap fun e => e.2.toList)
    return (some op, ← forwarded given outputs Arrays.empty)

end Native

namespace Wrapped
variable {β γ σ : Type} [BloqKind β] [GateKind γ] [CircuitForm β γ] [Allocator σ]

/-- A bloq as a gate. A flat list of qubits cannot tell two registers of one name apart. -/
def gate (bloq : β) : Except Error γ :=
  match (BloqKind.signature bloq).repeatedName? with
  | some name => .error (.registerGroup (BloqKind.text bloq) name)
  | none => .ok (CircuitForm.wrapped bloq)

/-- A wrapped bloq on arrays for all of its registers. -/
def onRegisters (bloq : β) (quregs : Quregs) : Except Error (Operation γ) := do
  let g ← gate bloq
  let qubits ← quregs.merge (BloqKind.signature bloq).registers
  Operation.make g qubits

/-- A wrapped bloq on the arrays of its inputs. Outputs that are not inputs get fresh qubits. The
result is the operation and the arrays of all outputs. -/
def onInputs (bloq : β) (given : Quregs) : AllocM σ (Operation γ × Quregs) := do
  let g ← (gate bloq : Except Error γ)
  let signature := BloqKind.signature bloq
  let (all, out) ← given.complete signature.registers Arrays.empty Arrays.empty
  let qubits ← all.merge signature.registers
  return (← Operation.make g qubits, out)

end Wrapped
end BloqCircuit
