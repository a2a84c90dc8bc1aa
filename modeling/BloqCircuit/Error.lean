import BloqCircuit.DataType
import BloqCircuit.Qubit
/-! Causes of failure, their classification and their wording. -/
namespace BloqCircuit

inductive Error where
  | qubitCountMismatch (gate : String) (expected got : Nat)
  | duplicateQubit (qubit : Qubit) (gate : String)
  | qubitNotAllocated (qubit : Qubit)
  /-- A gate has neither a matrix nor a decomposition. -/
  | noUnitary (gate : String)
  | tooManyQubits (got max : Nat)
  | decompositionDepth (gate : String)
  | notSerializable (gate : String)
  /-- The text is no JSON, or no JSON of the expected form. -/
  | json
  | duplicateRegister (name : String)
  /-- A bloq with two registers of one name cannot act as a gate. -/
  | registerGroup (bloq name : String)
  | unknownRegister (bloq name : String)
  | missingRegister (bloq name : String)
  | shapeMismatch (name : String) (expected got : List Nat)
  | dtypeMismatch (name : String) (expected got : DataType)
  | soquetNotAvailable (soquet : String)
  | danglingSoquets (soquets : List String)
  | missingQuregs (name : String)
  | registersFrozen (name : String)
  | missingBoundaryQuregs
  /-- The text is no readable configuration. -/
  | config
  /-- A flat list of qubits does not fit a signature. -/
  | qubitCount (expected got : Nat)
  | invalidTensor (bloq : String) (expected rows cols : Nat)
  | invalidPower (bloq : String)
  | classicalOutputWire (name : String)
  | classicalRegister (name : String)
  /-- A wire symbol has no text form. -/
  | unknownWireSymbol (symbol : String)
  | decomposeNotImplemented (bloq : String)
  | decomposeType (bloq reason : String)
  | missingBinding (soquet : String)
  | cycle
  /-- A script names a wire, an element or an array that is not there. -/
  | unboundName (name : String)
deriving DecidableEq, Repr, Inhabited

/-- Broad classes of failure. -/
inductive ErrorKind where
  | validation
  | unsupported
  /-- No decomposition is available; a caller may fall back. -/
  | decompositionUnavailable
  | consistency
  /-- The failure arose among circuits, below the bloqs. -/
  | circuit
deriving DecidableEq, Repr

/-- A list of numbers in brackets. -/
def bracketed (ns : List Nat) : String := "[" ++ ", ".intercalate (ns.map toString) ++ "]"

namespace Error

def kind : Error → ErrorKind
  | qubitCountMismatch .. | duplicateQubit .. | qubitNotAllocated _ | noUnitary _
  | tooManyQubits .. | decompositionDepth _ | notSerializable _ | json => .circuit
  | duplicateRegister _ | registerGroup .. | unknownRegister .. | missingRegister ..
  | shapeMismatch .. | dtypeMismatch .. | soquetNotAvailable _ | danglingSoquets _
  | missingQuregs _ | registersFrozen _ | missingBoundaryQuregs | config | qubitCount ..
  | invalidTensor .. | invalidPower _ | unboundName _ => .validation
  | classicalOutputWire _ | classicalRegister _ | unknownWireSymbol _ => .unsupported
  | decomposeNotImplemented _ | decomposeType .. => .decompositionUnavailable
  | missingBinding _ | cycle => .consistency

/-- Whether the failure only says that there is no decomposition. -/
def isDecomposeUnavailable (e : Error) : Bool := e.kind = .decompositionUnavailable

def quoted (name : String) : String := "'" ++ name ++ "'"

/-- The wording of a failure. What is wrong with a JSON text is not said. -/
def message : Error → String
  | qubitCountMismatch gate expected got =>
    "Gate " ++ quoted gate ++ " requires " ++ toString expected ++ " qubits, got " ++ toString got
  | duplicateQubit qubit gate =>
    "Duplicate qubit " ++ qubit.text ++ " in operation (gate: " ++ gate ++ ")"
  | qubitNotAllocated qubit => "Qubit " ++ qubit.text ++ " is not allocated by this qubit manager"
  | noUnitary gate => "Gate " ++ quoted gate ++ " has no unitary and no decomposition"
  | tooManyQubits got max =>
    "Dense unitary over " ++ toString got ++ " qubits exceeds the limit of " ++ toString max
  | decompositionDepth gate => "Decomposition of " ++ quoted gate ++ " exceeded the maximum depth"
  | notSerializable gate => "Gate " ++ quoted gate ++ " cannot be serialized"
  | json => "JSON error: "
  | duplicateRegister name =>
    "Register " ++ quoted name ++ " is declared more than once with overlapping sides"
  | registerGroup bloq name =>
    "Automated circuit conversion doesn't support multiple registers with same name (bloq: "
      ++ bloq ++ ", register: " ++ quoted name ++ ")"
  | unknownRegister bloq name => bloq ++ " has no register named " ++ quoted name
  | missingRegister bloq name =>
    "No wires supplied for register " ++ quoted name ++ " of " ++ bloq
  | shapeMismatch name expected got =>
    "Register " ++ quoted name ++ " expects shape " ++ bracketed expected
      ++ ", got " ++ bracketed got
  | dtypeMismatch name expected got =>
    "Register " ++ quoted name ++ " expects " ++ expected.text ++ ", got a wire of " ++ got.text
  | soquetNotAvailable soquet =>
    "Soquet " ++ soquet ++ " is not available: it was already consumed or never produced"
  | danglingSoquets soquets => "Finalizing left dangling soquets: " ++ ", ".intercalate soquets
  | missingQuregs name => "No qubits supplied for register " ++ quoted name
  | registersFrozen name =>
    "Cannot add register " ++ quoted name ++ ": the builder's signature is fixed"
  | missingBoundaryQuregs =>
    "An explicit signature requires both input and output qubit arrays"
  | config => "Invalid configuration: "
  | qubitCount expected got =>
    "Signature needs " ++ toString expected ++ " qubits, got " ++ toString got
  | invalidTensor bloq expected rows cols =>
    "Tensor of " ++ bloq ++ " has shape (" ++ toString rows ++ ", " ++ toString cols
      ++ "), expected a " ++ toString expected ++ "x" ++ toString expected ++ " matrix"
  | invalidPower bloq => "Only bloqs with THRU registers can be raised to a power: " ++ bloq
  | classicalOutputWire name =>
    "Output classical wires are not supported: register " ++ quoted name
  | classicalRegister name =>
    "Classical register " ++ quoted name ++ " cannot be represented on qubits"
  | unknownWireSymbol symbol => "Unknown wire symbol " ++ symbol
  | decomposeNotImplemented bloq => bloq ++ " does not declare a decomposition"
  | decomposeType bloq reason => bloq ++ " cannot be decomposed: " ++ reason
  | missingBinding soquet =>
    "Soquet " ++ soquet ++ " has no qubit binding; the composite graph is malformed"
  | cycle => "Composite graph contains a cycle"
  | unboundName name => "Nothing is bound to " ++ quoted name

end Error
end BloqCircuit
