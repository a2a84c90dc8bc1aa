import BloqCircuit.Bloq.Decomposition
import BloqCircuit.Dense
/-! Tensors of bloqs and matrices of gates. The tensor of a composite is evaluated from its circuit,
whose gates may hold composites again; the depth of that nesting bounds the evaluation. -/
namespace BloqCircuit
variable {α κ : Type}

/-! ## Nesting -/

mutual
/-- How deep composites are nested in a gate. -/
def Gate.nesting : Gate α κ → Nat
  | .standard _ => 0
  | .ofBloq b => b.nesting
  | .declared ⟨_, _, _, body, _, _, inverse⟩ => max (bodyNesting body) (madeNesting inverse)
  | .nest _ => 0

/-- How deep composites are nested in a bloq. -/
def Bloq.nesting : Bloq α κ → Nat
  | .split _ | .join _ | .allocate _ | .free _ => 0
  | .adjoint b => b.nesting
  | .power b _ => b.nesting
  | .ofGate g => g.nesting
  | .composite ⟨_, is, _⟩ => instancesNesting is + 1
  | .declared ⟨_, _, _, decomposition, _, _, native⟩ =>
    max (decompositionNesting decomposition) (nativeNesting native)

def bodyNesting : Option (GateBody (Gate α κ)) → Nat
  | none => 0
  | some ⟨_, steps, _, _⟩ => stepsNesting steps

def stepsNesting : List (Gate α κ × List Nat) → Nat
  | [] => 0
  | (g, _) :: rest => max g.nesting (stepsNesting rest)

def madeNesting : Option (Except Error (Gate α κ)) → Nat
  | some (.ok g) => g.nesting
  | _ => 0

def nativeNesting : Option (Native (Gate α κ)) → Nat
  | some (.gate g _) => g.nesting
  | some (.forward g _) => madeNesting g
  | _ => 0

def decompositionNesting : Except Error (Composite (Bloq α κ)) → Nat
  | .ok ⟨_, is, _⟩ => instancesNesting is
  | .error _ => 0

def instancesNesting : List (Instance (Bloq α κ)) → Nat
  | [] => 0
  | ⟨_, b⟩ :: rest => max b.nesting (instancesNesting rest)
end

/-! ## Evaluation -/

variable [Angle α] [Amplitude κ] [Rotation α κ]

/-- A tensor has the dimensions of a matrix on so many qubits. -/
def checkTensor (b : Bloq α κ) (m : DenseMatrix κ) : Except Error (DenseMatrix κ) :=
  let dim := basisSize b.signature.totalBits
  if m.rows = dim ∧ m.cols = dim then .ok m
  else .error (.invalidTensor b.text dim m.rows m.cols)

mutual
/-- The matrix of a gate, given the tensors of composites. A wrapped bloq has a matrix of its own
only if all of its registers go through and it does not decompose. -/
def Gate.unitaryWith (dense : Composite (Bloq α κ) → Except Error (DenseMatrix κ)) :
    Gate α κ → Except Error (Option (DenseMatrix κ))
  | .standard g => .ok g.matrix?
  | .ofBloq b =>
    if !b.signature.allThru then .ok none
    else match b.decomposition with
      | .ok _ => .ok none
      | .error e =>
        if !e.isDecomposeUnavailable then .error e
        else do
          match ← b.tensorWith dense with
          | none => return none
          | some m => some <$> checkTensor b m
  | .declared d => .ok d.unitary
  | .nest _ => .ok none

/-- The tensor of a bloq, given the tensors of composites. Rows index the output qubits, columns
the input qubits. -/
def Bloq.tensorWith (dense : Composite (Bloq α κ) → Except Error (DenseMatrix κ)) :
    Bloq α κ → Except Error (Option (DenseMatrix κ))
  | .split t | .join t => .ok (some (.identity (basisSize t.bitsize)))
  | .allocate t => .ok (some (.firstColumn (basisSize t.bitsize)))
  | .free t => .ok (some (.firstRow (basisSize t.bitsize)))
  | .adjoint b => do return (← b.tensorWith dense).map DenseMatrix.adjoint
  | .power b n => do return (← b.tensorWith dense).map fun m => m.pow n
  | .ofGate g => g.unitaryWith dense
  | .composite c => some <$> dense c
  | .declared d => .ok d.tensor
end

/-- The tensor of a composite: its circuit on qubits named after its inputs, evaluated from these to
its outputs. Composites nested deeper than `levels` are refused. -/
@[specialize] def Composite.tensorWithin :
    (levels : Nat) → Composite (Bloq α κ) → Except Error (DenseMatrix κ)
  | 0, c => .error (.decompositionDepth c.text)
  | levels + 1, c =>
    match c.signature.registers.find? fun r => !r.dtype.isQuantum with
    | some r => .error (.classicalRegister r.name)
    | none => do
      let (inputs, circuit, out) ← c.exportNamed
      let outputs ← out.merge c.signature.rights
      Dense.between ⟨Gate.unitaryWith (tensorWithin levels), Gate.decompose⟩
        circuit.operations inputs outputs

/-- The tensor of a composite. -/
@[specialize] def Composite.tensor (c : Composite (Bloq α κ)) : Except Error (DenseMatrix κ) :=
  c.tensorWithin (Bloq.composite c).nesting

/-- The matrix that a gate has of its own, if it has one. -/
@[specialize] def Gate.unitary (g : Gate α κ) : Except Error (Option (DenseMatrix κ)) :=
  g.unitaryWith Composite.tensor

/-- The tensor of a bloq, if it has one. -/
@[specialize] def Bloq.tensor (b : Bloq α κ) : Except Error (Option (DenseMatrix κ)) :=
  b.tensorWith Composite.tensor

/-- What dense evaluation needs to know about gates. -/
@[specialize] def Gate.meaning : GateMeaning (Gate α κ) κ := ⟨Gate.unitary, Gate.decompose⟩

/-- Whether a matrix can be expected. -/
def Gate.hasUnitary : Gate α κ → Bool
  | .standard g => match g with
    | .reset => false
    | _ => true
  | .ofBloq b => b.signature.allThru
  | .declared d => d.unitary.isSome
  | .nest _ => false

/-- The matrix of a circuit from the basis of `inputs` to the basis of `outputs`. -/
@[specialize] def Circuit.unitaryBetween (c : Circuit (Gate α κ)) (inputs outputs : List Qubit) :
    Except Error (DenseMatrix κ) :=
  Dense.between Gate.meaning c.operations inputs outputs

end BloqCircuit
