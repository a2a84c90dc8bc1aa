import BloqCircuit.Export
/-! Wrapped bloqs: decomposing a bloq on the qubits that a gate was given. -/
namespace BloqCircuit

/-- Runs a computation in a fresh scope on top of the state. What happened in the base stays, also
after a failure. -/
def Scope.within {σ τ : Type} (m : AllocM (Scope σ) τ) : AllocM σ τ := fun base =>
  let (result, scope) := m { base }
  (result, scope.base)

namespace Wrapped
variable {β γ : Type} [BloqKind β] [GateKind γ] [CircuitForm β γ]

/-- The arrays of given registers in a map. Shapes are not checked. -/
def pick (quregs : Quregs) : List Register → Quregs → Except Error Quregs
  | [], out => .ok out
  | r :: rest, out => match quregs.get? r.name with
    | some g => pick quregs rest (out.insert r.name g)
    | none => .error (.missingQuregs r.name)

/-- Frees the qubits that a decomposition produced for outputs that are no inputs, and pairs them
with the qubits that were assigned to these outputs. -/
def returnOutputs {σ : Type} [Allocator σ] (produced assigned : Quregs) :
    List Register → AllocM σ (List (Qubit × Qubit))
  | [] => return []
  | r :: rest => do
    match produced.get? r.name, assigned.get? r.name with
    | some p, some a => do
      if p.shape ≠ a.shape then throw (.shapeMismatch r.name a.shape p.shape)
      Allocator.free p.toList
      let more ← returnOutputs produced assigned rest
      return p.toList.zip a.toList ++ more
    | _, _ => throw (.missingQuregs r.name)

/-- Emits a decomposition on the given arrays in a scope of its own. Outputs end up on the qubits
assigned to them. -/
def emitOn (c : Composite β) (quregs : Quregs) : AllocM CleanPool (Circuit γ) :=
  Scope.within do
    let inputs ← (pick quregs c.signature.lefts Arrays.empty : Except Error Quregs)
    let qubits ← inputs.merge c.signature.lefts
    modify (Scope.declare qubits)
    let (circuit, out) ← c.export c.signature inputs .greedy
    let pairs ← returnOutputs out quregs (c.signature.rights.filter (·.side == .right))
    return circuit.map (Renaming.ofPairs pairs).rename

/-- The decomposition of a wrapped bloq on a flat list of qubits. There is none if the bloq says
that it has none. -/
def decompose (signature : Signature) (decomposition : Except Error (Composite β))
    (qubits : List Qubit) : AllocM CleanPool (Option (List (Operation γ))) := do
  let quregs ← Quregs.split signature qubits
  try
    let c ← decomposition
    let circuit ← emitOn c quregs
    return some circuit.operations
  catch e =>
    if e.isDecomposeUnavailable then return none else throw e

end Wrapped
end BloqCircuit
