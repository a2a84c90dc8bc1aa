import BloqCircuit.CircuitForm
import BloqCircuit.Composite
/-! From composites to circuits. The walk over the graph keeps, for each port with a live wire, the
qubits that carry it. -/
namespace BloqCircuit

/-- Ports with the qubits that carry the wires there. -/
abbrev Carriers := PortMap (List Qubit)

namespace Export
variable {β γ σ : Type} [BloqKind β] [GateKind γ] [CircuitForm β γ] [Allocator σ]

/-- The carriers of the input boundary. -/
def bindInputs (quregs : Quregs) : List Register → Carriers → Except Error Carriers
  | [], carriers => .ok carriers
  | r :: rest, carriers => do
    let g ← r.arrayIn quregs
    bindInputs quregs rest <|
      r.indices.foldl (fun c i => c.insert ⟨0, i, r⟩ (r.lane g i)) carriers

/-- The qubits at the start of a wire go over to its end. -/
def follow (e : Edge β) (carriers : Carriers) : Except Error Carriers :=
  match carriers[e.start]? with
  | some qubits => .ok ((carriers.erase e.start).insert e.stop qubits)
  | none => .error (.missingBinding e.wire.left.text)

def followAll (edges : List (Edge β)) (carriers : Carriers) : Except Error Carriers :=
  edges.foldlM (fun c e => follow e c) carriers

/-- The lanes of a register on a node, put in front of others from the last on. If `ends` is set,
they leave the carriers. -/
def collect (number : Nat) (node : Node β) (reg : Register) (ends : Bool) :
    List (List Nat) → Carriers → List (List Qubit) → Except Error (List (List Qubit) × Carriers)
  | [], carriers, lanes => .ok (lanes.reverse, carriers)
  | i :: rest, carriers, lanes =>
    let port : Port := ⟨number, i, reg⟩
    match carriers[port]? with
    | none => .error (.missingBinding (⟨node, reg, i⟩ : Soquet β).text)
    | some qubits =>
      collect number node reg ends rest (if ends then carriers.erase port else carriers)
        (qubits :: lanes)

/-- The arrays of input registers on a node. Wires that end there leave the carriers. -/
def gather (number : Nat) (node : Node β) (ends : Register → Bool) :
    List Register → Carriers → Quregs → Except Error (Quregs × Carriers)
  | [], carriers, arrays => .ok (arrays, carriers)
  | r :: rest, carriers, arrays => do
    let (lanes, carriers) ← collect number node r (ends r) r.indices carriers []
    let g ← r.arrayOf lanes.flatten
    gather number node ends rest carriers (arrays.insert r.name g)

/-- The carriers of the wires out of a node, read off its output arrays. -/
def bindOutputs (out : Quregs) : List (Edge β) → Carriers → Except Error Carriers
  | [], carriers => .ok carriers
  | e :: rest, carriers => do
    let reg := e.wire.left.reg
    let g ← reg.arrayIn out
    bindOutputs out rest (carriers.insert e.start (reg.lane g e.wire.left.index))

/-- Runs one bloq on its arrays: natively if it can, wrapped as a gate otherwise. -/
def runBloq (bloq : β) (arrays : Quregs) : AllocM σ (Option (Operation γ) × Quregs) :=
  match CircuitForm.native? bloq with
  | some form => form.run arrays
  | none => do
    let (op, out) ← Wrapped.onInputs bloq arrays
    return (some op, out)

/-- An output without an input that carries classical data. -/
def classicalOutput? (s : Signature) : Option Register :=
  s.rights.find? fun r => r.side == .right && !r.dtype.isQuantum

/-- Emits one instance. -/
def emit (x : Instance β) (v : Visit β) (carriers : Carriers) :
    AllocM σ (Option (Operation γ) × Carriers) := do
  let carriers ← followAll v.incoming carriers
  let signature := BloqKind.signature x.bloq
  match classicalOutput? signature with
  | some r => throw (.classicalOutputWire r.name)
  | none => do
    let (arrays, carriers) ←
      gather v.number v.node (fun r => r.side == .left) signature.lefts carriers Arrays.empty
    let (op, out) ← runBloq x.bloq arrays
    return (op, ← bindOutputs out v.outgoing carriers)

/-- Emits the nodes of a walk in turn. -/
def emitAll : List (Visit β) → Carriers → AllocM σ (List (Operation γ) × Carriers)
  | [], carriers => return ([], carriers)
  | v :: rest, carriers => do
    match v.node with
    | .leftDangle => emitAll rest carriers
    | .rightDangle => do
      let carriers ← followAll v.incoming carriers
      emitAll rest carriers
    | .placed x => do
      let (op, carriers) ← emit x v carriers
      let (ops, carriers) ← emitAll rest carriers
      return (op.toList ++ ops, carriers)

end Export

/-- Emits a composite as a circuit on the arrays of a signature's inputs. The result is the circuit
and the arrays of the signature's outputs. -/
def Composite.export {β γ σ : Type} [BloqKind β] [GateKind γ] [CircuitForm β γ]
    [Allocator σ] (c : Composite β) (signature : Signature) (quregs : Quregs) (order : TraversalOrder) :
    AllocM σ (Circuit γ × Quregs) := do
  let carriers ← (Export.bindInputs quregs signature.lefts ∅ : Except Error Carriers)
  let visits ← c.visits order
  let (ops, carriers) ← Export.emitAll visits carriers
  let (out, _) ← Export.gather (c.instances.length + 1) (.rightDangle : Node β) (fun _ => true)
    signature.rights carriers Arrays.empty
  return (⟨ops⟩, out)

namespace Composite
variable {β γ : Type} [BloqKind β] [GateKind γ] [CircuitForm β γ]

/-- Emits a composite on qubits named after its inputs, which are declared live. The result is the
input qubits, the circuit and the output arrays. -/
def exportNamed (c : Composite β) : Except Error (List Qubit × Circuit γ × Quregs) := do
  let quregs := Quregs.named c.signature.lefts
  let inputs ← quregs.merge c.signature.lefts
  let scope : Scope CleanPool := Scope.declare inputs { base := {} }
  let (circuit, out) ← ((c.export c.signature quregs .greedy).run scope).1
  return (inputs, circuit, out)

/-- The circuit of a composite on qubits named after its inputs. -/
def toCircuit (c : Composite β) : Except Error (Circuit γ) := do
  let (_, circuit, _) ← c.exportNamed
  return circuit

end Composite
end BloqCircuit
