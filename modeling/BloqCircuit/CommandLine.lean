import BloqCircuit.CommandLine.Arguments
import BloqCircuit.CommandLine.Files
import BloqCircuit.Bloq.Tensor
import BloqCircuit.Circuit.Json
import BloqCircuit.Composite.Listing
import BloqCircuit.Config
import BloqCircuit.Scalar.Double
/-! The commands: what each of them prints and how it ends. -/
namespace BloqCircuit.CommandLine

/-- Circuits over doubles. -/
abbrev Gates := Gate Float Complex

abbrev Bloqs := Bloq Float Complex

/-- What a command leaves behind. -/
structure Output where
  status : UInt32
  stdout : String
  stderr : String
deriving DecidableEq, Repr

/-- A computation that prints lines and may end with an error text. -/
abbrev PrintM := ExceptT String (StateM String)

def print (s : String) : PrintM Unit := modify (· ++ s)

def printLine (s : String) : PrintM Unit := print (s ++ "\n")

/-- Puts what was being done in front of an error text. -/
def within {τ : Type} (what : String) : Except String τ → PrintM τ
  | .ok x => return x
  | .error e => throw (what ++ ": " ++ e)

def explained {τ : Type} : Except Error τ → Except String τ := Except.mapError Error.message

def loadConfig (find : String → Entry) : Option String → PrintM Config
  | none => return {}
  | some path => do
    let source ← within ("Failed to read config: " ++ path) (find path).content
    within ("Invalid config: " ++ path) (explained (Config.ofText source))

def loadCircuit (find : String → Entry) (path : String) : PrintM (Circuit Gates) := do
  if !(find path).isPresent then throw ("File not found: " ++ path)
  let ext := extension path
  if ext.toLower ≠ "json" then
    throw ("Unsupported circuit format: '" ++ ext ++ "' (expected .json)")
  let source ← within ("Failed to read file: " ++ path) (find path).content
  within ("Failed to parse circuit: " ++ path) (explained (Circuit.ofJsonText source))

def importWhole (c : Circuit Gates) (config : Config) : PrintM (Composite Bloqs) :=
  within "Failed to import circuit" (explained (c.importWhole config.defaultRegister))

/-- Imports a circuit and prints the composite's registers and wires. -/
def importCircuit (find : String → Entry) (paths : Paths) : PrintM Unit := do
  printLine ("→ Importing " ++ paths.input)
  let config ← loadConfig find paths.config
  let circuit ← loadCircuit find paths.input
  printLine ("  Loaded: " ++ toString circuit.qubits.length ++ " qubits, "
    ++ toString circuit.length ++ " ops")
  let composite ← importWhole circuit config
  printLine "✓ Import complete"
  printLine ("  Result: " ++ toString composite.instances.length ++ " instances, "
    ++ toString composite.connections.length ++ " connections")
  for text in composite.signature.texts do
    printLine ("  Register: " ++ text)
  printLine ""
  match composite.listing with
  | .ok text => print text
  | .error e => throw e.message

/-- The texts of the operations, sorted. -/
def sortedTexts (c : Circuit Gates) : List String :=
  (c.operations.map Operation.text).mergeSort fun s t => decide (s ≤ t)

/-- Imports a circuit, exports it again and compares the operations. -/
def roundTrip (find : String → Entry) (paths : Paths) : PrintM Unit := do
  printLine ("→ Round-tripping " ++ paths.input)
  let config ← loadConfig find paths.config
  let circuit ← loadCircuit find paths.input
  let composite ← importWhole circuit config
  printLine ("  Imported: " ++ toString composite.instances.length ++ " instances")
  let quregs := circuit.defaultQuregs config.defaultRegister
  let exported : AllocM CleanPool (Circuit Gates × Quregs) :=
    composite.export composite.signature quregs config.traversal
  let (back, out) ← within "Failed to export composite bloq" (explained (exported.run {}).1)
  if !out.holdsSame quregs then
    throw "Output registers do not match the input qubits"
  let expected := sortedTexts circuit
  let actual := sortedTexts back
  if expected ≠ actual then
    throw ("Round trip changed the circuit: " ++ toString expected.length ++ " ops in, "
      ++ toString actual.length ++ " ops out")
  printLine ("✓ Round trip preserved " ++ toString actual.length ++ " ops")
  if back == circuit then printLine "  Operation order unchanged"

def versionNumber : String := "0.3.0"

/-- The parts of the program and what each is for. -/
def components : List (String × String) :=
  [("quarry-circuit", "flat circuits"), ("quarry-bloq", "bloq graphs and circuit interop"),
   ("quarry-cli", "command-line interface")]

/-- The text with blanks after it up to a width. -/
def padded (width : Nat) (s : String) : String :=
  s ++ String.ofList (List.replicate (width - s.length) ' ')

def version : PrintM Unit := do
  printLine ("quarry v" ++ versionNumber)
  for (name, role) in components do
    printLine ("  " ++ padded 16 name ++ padded 10 versionNumber ++ role)
  let defaults : Config := {}
  printLine ""
  printLine ("Defaults: register '" ++ defaults.defaultRegister ++ "', "
    ++ defaults.traversal.name ++ " traversal")

def programVersion : PrintM Unit := printLine ("quarry " ++ versionNumber)

def Command.run (find : String → Entry) : Command → PrintM Unit
  | .importCircuit paths => CommandLine.importCircuit find paths
  | .roundTrip paths => CommandLine.roundTrip find paths
  | .version => CommandLine.version
  | .programVersion => CommandLine.programVersion

/-- The error line. It ends where an account of a fault in a JSON text would begin. -/
def errorLine (e : String) : String :=
  let line := "Error: " ++ e
  if e.endsWith "JSON error: " || e.endsWith "Invalid configuration: " then line else line ++ "\n"

/-- Runs a command against what `find` gives for paths. -/
def run (find : String → Entry) (args : List String) : Output :=
  match Command.ofArguments? args with
  | none => ⟨2, "", "error: invalid arguments\n"⟩
  | some command => match (command.run find).run "" with
    | (.ok _, stdout) => ⟨0, stdout, ""⟩
    | (.error e, stdout) => ⟨1, stdout, errorLine e⟩

end BloqCircuit.CommandLine
