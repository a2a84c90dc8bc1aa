import BloqCircuit.Bundles
import BloqCircuit.CircuitForm
import BloqCircuit.Builder
/-! From circuits to composites. The walk over the operations keeps which soquet carries which
bundle of qubits, and reshapes bundles where an operation asks for others. -/
namespace BloqCircuit

namespace Import
variable {β γ : Type} [BloqKind β] [GateKind γ] [CircuitForm β γ]

/-- Binds the bits of a bundle, as many as there are. -/
def bindBits : List Qubit → List (Soquet β) → Bundles β → Bundles β
  | q :: qs, s :: ss, b => bindBits qs ss (b.insert [q] s)
  | _, _, b => b

/-- Splits each bundle of several qubits that shares one with `wanted`; other bundles stay. -/
def splitShared (wanted : QubitSet) :
    List (List Qubit × Soquet β) → Bundles β → BuildM β (Bundles β)
  | [], b => return b
  | (qubits, s) :: rest, b => do
    if 1 < qubits.length && qubits.any wanted.contains then
      let bits ← Builder.split s
      splitShared wanted rest (bindBits qubits bits.toList b)
    else splitShared wanted rest (b.insert qubits s)

/-- Takes single qubits out of the bundles, in front of `taken` from the last on. -/
def takeBits : List Qubit → Bundles β → (taken : List (Soquet β)) →
    Except Error (List (Soquet β) × Bundles β)
  | [], b, taken => .ok (taken.reverse, b)
  | q :: qs, b, taken => match b.get? [q] with
    | none => .error (.missingBinding q.text)
    | some s => takeBits qs (b.erase [q]) (s :: taken)

/-- Allocates a bundle for the qubits that no bundle holds, if there are any. -/
def allocateMissing (qubits : List Qubit) (b : Bundles β) : BuildM β (Bundles β) := do
  let missing := b.missing qubits
  if missing.isEmpty then return b
  else do
    let s ← Builder.allocate (DataType.qubits missing.length)
    return b.insert missing s

/-- Splits the bundles that share qubits with a request and joins its qubits in order. -/
def regroup (request : QubitBundle) (b : Bundles β) : BuildM β (Soquet β × Bundles β) := do
  let b ← splitShared (.ofList request.qubits) b.entries {}
  if request.qubits.length = 1 then
    match b.get? request.qubits with
    | some s => return (s, b)
    | none => throw (.missingBinding request.text)
  else do
    let (bits, b) ← takeBits request.qubits b []
    let s ← Builder.join (.vector bits) (some request.dtype)
    return (s, b.insert request.qubits s)

/-- A soquet that carries exactly the requested bundle. One that is bound is taken as it is.
Otherwise missing qubits are allocated, and what is then not bound as a whole is regrouped. -/
def ensure (request : QubitBundle) (b : Bundles β) : BuildM β (Soquet β × Bundles β) := do
  match b.get? request.qubits with
  | some s => return (s, b)
  | none => do
    let b ← allocateMissing request.qubits b
    match b.get? request.qubits with
    | some s => return (s, b)
    | none => regroup request b

/-- Soquets for the given bundles, one after another. -/
def ensureEach : List QubitBundle → Bundles β → BuildM β (List (Soquet β) × Bundles β)
  | [], b => return ([], b)
  | bundle :: rest, b => do
    let (s, b) ← ensure bundle b
    let (ss, b) ← ensureEach rest b
    return (s :: ss, b)

/-- Soquets for registers on their qubit arrays. -/
def ensureRegisters (arrays : List (Register × Grid Qubit)) (b : Bundles β) (out : Soquets β) :
    BuildM β (Soquets β × Bundles β) :=
  match arrays with
  | [] => return (out, b)
  | (r, g) :: rest => do
    let (soquets, b) ← ensureEach (r.indices.map (r.bundle g)) b
    match Grid.ofCells? r.shape soquets with
    | some cells => ensureRegisters rest b (out.insert r.name cells)
    | none => throw (.shapeMismatch r.name r.shape [soquets.length])

/-- Pairs registers with their arrays, checked. -/
def arraysOf (quregs : Quregs) (registers : List Register) :
    Except Error (List (Register × Grid Qubit)) :=
  registers.mapM fun r => return (r, ← r.arrayIn quregs)

/-- Binds a register after an operation: inputs that end there are unbound, all outputs are bound
to the soquets of the placed bloq. -/
def rebind (bloq : β) (out : Soquets β) (r : Register) (g : Grid Qubit) :
    List (List Nat) → Bundles β → Except Error (Bundles β)
  | [], b => .ok b
  | i :: rest, b =>
    if r.side = .left then rebind bloq out r g rest (b.erase (r.lane g i))
    else match (out.get? r.name).bind (·.get? i) with
      | some s => rebind bloq out r g rest (b.insert (r.lane g i) s)
      | none => .error (.missingRegister (BloqKind.text bloq) r.name)

def rebindAll (bloq : β) (out : Soquets β) :
    List (Register × Grid Qubit) → Bundles β → Except Error (Bundles β)
  | [], b => .ok b
  | (r, g) :: rest, b => do
    let b ← rebind bloq out r g r.indices b
    rebindAll bloq out rest b

/-- Places the bloq of one operation. -/
def addOperation (op : Operation γ) (b : Bundles β) : BuildM β (Bundles β) := do
  let bloq : β := CircuitForm.ofGate op.gate
  let signature := BloqKind.signature bloq
  let quregs ← Quregs.split signature op.qubits
  let arrays ← arraysOf quregs signature.registers
  let (given, b) ← ensureRegisters (arrays.filter (·.1.side.isLeft)) b Arrays.empty
  let out ← Builder.add bloq given
  rebindAll bloq out arrays b

def addOperations : List (Operation γ) → Bundles β → BuildM β (Bundles β)
  | [], b => return b
  | op :: rest, b => do
    let b ← addOperation op b
    addOperations rest b

/-- Binds the inputs of the composite. -/
def bindInputs (initial : Soquets β) (quregs : Quregs) :
    List Register → Bundles β → Except Error (Bundles β)
  | [], b => .ok b
  | r :: rest, b => do
    let g ← r.arrayIn quregs
    match initial.get? r.name with
    | none => throw (.missingRegister Builder.ownName r.name)
    | some soquets =>
      bindInputs initial quregs rest <|
        (r.indices.zip soquets.toList).foldl (fun b e => b.insert (r.lane g e.1) e.2) b

/-- Soquets for the outputs of the composite, and the bundles that they use. -/
def collectOutputs (quregs : Quregs) : List Register → Bundles β → Soquets β →
    Std.ExtTreeSet (List Qubit) →
    BuildM β (Soquets β × Std.ExtTreeSet (List Qubit) × Bundles β)
  | [], b, out, used => return (out, used, b)
  | r :: rest, b, out, used => do
    let g ← r.arrayIn quregs
    let (out, b) ← ensureRegisters [(r, g)] b out
    collectOutputs quregs rest b out (used.insertMany (r.indices.map (r.lane g)))

/-- Frees all bundles that are not used. -/
def freeUnused (used : Std.ExtTreeSet (List Qubit)) :
    List (List Qubit × Soquet β) → BuildM β Unit
  | [] => return ()
  | (qubits, s) :: rest => do
    if !used.contains qubits then Builder.free s
    freeUnused used rest

end Import

namespace Circuit
variable {β γ : Type} [BloqKind β] [GateKind γ] [CircuitForm β γ]

/-- The composite of a circuit between the given boundaries. Qubits that the circuit touches outside
of them are allocated and freed. -/
def importBetween (c : Circuit γ) (signature : Signature) (inputs outputs : Quregs) :
    Except Error (Composite β) :=
  Builder.run do
    let initial ← Builder.start signature false
    let bundles ← (Import.bindInputs initial inputs signature.lefts {} : Except Error (Bundles β))
    let bundles ← Import.addOperations c.operations bundles
    let (final, used, bundles) ← Import.collectOutputs outputs signature.rights bundles Arrays.empty ∅
    Import.freeUnused used bundles.entries
    Builder.finalize final

/-- One register that goes through, over the qubits of the circuit in order of first use. -/
def defaultRegister (c : Circuit γ) (name : String) : Register :=
  ⟨name, .qbit, [c.qubits.length], .thru⟩

/-- The array of the default register. -/
def defaultQuregs (c : Circuit γ) (name : String) : Quregs :=
  ⟨[(name, ⟨[c.qubits.length, 1], c.qubits.toArray, by simp [shapeSize]⟩)]⟩

/-- The composite of a circuit with one register over all of its qubits. -/
def importWhole (c : Circuit γ) (name : String) : Except Error (Composite β) :=
  let quregs := c.defaultQuregs name
  c.importBetween ⟨[c.defaultRegister name]⟩ quregs quregs

/-- The composite of a circuit. An explicit signature needs both of its boundaries. -/
def importAs (c : Circuit γ) (signature : Option Signature) (inputs outputs : Option Quregs)
    (name : String) : Except Error (Composite β) :=
  match signature, inputs, outputs with
  | none, _, _ => c.importWhole name
  | some s, some i, some o => c.importBetween s i o
  | some _, _, _ => .error .missingBoundaryQuregs

end Circuit
end BloqCircuit
