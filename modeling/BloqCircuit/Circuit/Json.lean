import BloqCircuit.Bloq
import BloqCircuit.Codec
/-! Circuits as JSON text. Only standard gates have a JSON form. -/
namespace BloqCircuit
open BloqCircuit.Json (member)
variable {α κ : Type} [Angle α] [AngleJson α]

/-- The JSON form of an operation with a standard gate. -/
def Operation.toJson (op : Operation (Gate α κ)) : Except Error Json :=
  match op.gate with
  | .standard g =>
    .ok (.object [member "gate" g.toJson, member "qubits" (.array (op.qubits.map Qubit.toJson))])
  | g => .error (.notSerializable g.name)

/-- A gate with qubits. Whether they fit is not checked. -/
def Operation.ofJson? (j : Json) : Option (StandardGate α × List Qubit) :=
  match j.fields? ["gate", "qubits"] with
  | some [gate, qubits] => do
    return (← StandardGate.ofJson? gate, ← qubits.list? Qubit.ofJson?)
  | _ => none

namespace Circuit

/-- The indented JSON text of a circuit of standard gates. -/
def toJsonText (c : Circuit (Gate α κ)) : Except Error String := do
  let ops ← c.operations.mapM Operation.toJson
  return (Json.object [member "operations" (.array ops)]).pretty

/-- The gates and qubits of a JSON value. -/
def partsOfJson? (j : Json) : Option (List (StandardGate α × List Qubit)) :=
  match j.fields? ["operations"] with
  | some [ops] => ops.list? Operation.ofJson?
  | _ => none

/-- The circuit of a JSON text. That the text has the expected form is settled before any operation
is checked. -/
def ofJsonText (s : String) : Except Error (Circuit (Gate α κ)) :=
  match (Json.read? s).bind partsOfJson? with
  | none => .error .json
  | some parts => do
    return ⟨← parts.mapM fun p => Operation.make (Gate.standard p.1) p.2⟩

end Circuit
end BloqCircuit
