import BloqCircuit.Composite
/-! Incremental construction of composites. Every soquet is produced once and consumed once. A step
that fails keeps what it has done before it failed. -/
namespace BloqCircuit

/-- The port of a soquet in a composite under construction, where instances have the numbers from
zero on. Nothing is produced on the output boundary, which may therefore count as the other one. -/
def Soquet.port {β : Type} (s : Soquet β) : Port :=
  let node := match s.node with
    | .placed x => x.number + 1
    | .leftDangle | .rightDangle => 0
  ⟨node, s.index, s.reg⟩

/-- A composite under construction. -/
structure Builder (β : Type) where
  /-- The number of the next instance. -/
  next : Nat := 0
  instances : Array (Instance β) := #[]
  connections : Array (Connection β) := #[]
  /-- The soquets that are produced and not yet consumed. -/
  available : PortMap (Soquet β) := ∅
  registers : List Register := []
  /-- Whether registers may still be added. -/
  isOpen : Bool := true

/-- A step of construction. -/
abbrev BuildM (β : Type) := ExceptT Error (StateM (Builder β))

namespace Builder
variable {β : Type} [BloqKind β]

/-- How messages name the composite under construction. -/
def ownName : String := "CompositeBloq"

/-- Takes one soquet out of the available ones, if it is there. -/
def takeOut (s : Soquet β) (available : PortMap (Soquet β)) : Option (PortMap (Soquet β)) :=
  match available[s.port]? with
  | some t => if t == s then some (available.erase s.port) else none
  | none => none

/-- Wires one soquet into an element of an input register. The types must be consistent and the
soquet available. -/
def consumeOne (node : Node β) (reg : Register) (index : List Nat) (s : Soquet β) :
    BuildM β Unit := do
  if !s.reg.dtype.isConsistentWith reg.dtype then
    throw (.dtypeMismatch reg.name reg.dtype s.reg.dtype)
  let b ← get
  match takeOut s b.available with
  | none => throw (.soquetNotAvailable s.text)
  | some rest =>
    set { b with available := rest, connections := b.connections.push ⟨s, ⟨node, reg, index⟩⟩ }

/-- Wires soquets into the elements of an input register, one by one. -/
def consumeEach (node : Node β) (reg : Register) :
    List (List Nat) → List (Soquet β) → BuildM β Unit
  | i :: is, s :: ss => do
    consumeOne node reg i s
    consumeEach node reg is ss
  | _, _ => return ()

/-- Wires an array of soquets into an input register of the same shape. -/
def consume (node : Node β) (reg : Register) (g : Grid (Soquet β)) : BuildM β Unit := do
  if g.shape ≠ reg.shape then throw (.shapeMismatch reg.name reg.shape g.shape)
  consumeEach node reg reg.indices g.toList

/-- Wires arrays into input registers by name; the result is what no register took. -/
def consumeAll (owner : String) (node : Node β) :
    List Register → Soquets β → BuildM β (Soquets β)
  | [], given => return given
  | reg :: rest, given => match given.take reg.name with
    | none => throw (.missingRegister owner reg.name)
    | some (g, given) => do
      consume node reg g
      consumeAll owner node rest given

/-- Wires arrays into exactly the given input registers. -/
def consumeExactly (owner : String) (node : Node β) (registers : List Register)
    (given : Soquets β) : BuildM β Unit := do
  let rest ← consumeAll owner node registers given
  match rest.names with
  | [] => return ()
  | name :: _ => throw (.unknownRegister owner name)

def produce (soquets : List (Soquet β)) (b : Builder β) : Builder β :=
  { b with available := soquets.foldl (fun a s => a.insert s.port s) b.available }

/-- Adds a register to the signature. An input yields its soquets. -/
def addRegister (reg : Register) : BuildM β (Option (Grid (Soquet β))) := do
  let b ← get
  if !b.isOpen then throw (.registersFrozen reg.name)
  let _ ← (Signature.ofRegisters (b.registers ++ [reg]) : Except Error Signature)
  set { b with registers := b.registers ++ [reg] }
  if reg.side.isLeft then
    let g := Grid.ofFn reg.shape fun i => (⟨.leftDangle, reg, i⟩ : Soquet β)
    modify (produce g.toList)
    return some g
  else return none

/-- Places a bloq. Its inputs consume the given soquets; its outputs are returned. Only a placed
bloq uses up its number. -/
def add (bloq : β) (given : Soquets β) : BuildM β (Soquets β) := do
  let x : Instance β := ⟨(← get).next, bloq⟩
  let signature := BloqKind.signature bloq
  consumeExactly (BloqKind.text bloq) (.placed x) signature.lefts given
  let out := Soquets.ofNode (.placed x) signature.rights
  let soquets := signature.rights.flatMap fun r =>
    r.indices.map fun i => (⟨.placed x, r, i⟩ : Soquet β)
  modify fun b => { produce soquets b with next := b.next + 1, instances := b.instances.push x }
  return out

/-- The name of the only register of the bloqs that reshape, make and end bundles. -/
def bundleName : String := "reg"

def scalarArg (s : Soquet β) : Soquets β := ⟨[(bundleName, .scalar s)]⟩

/-- Takes a bundle apart into its bits. -/
def split (s : Soquet β) : BuildM β (Grid (Soquet β)) := do
  let bloq : β := BloqKind.split s.reg.dtype
  let out ← add bloq (scalarArg s)
  match out.get? bundleName with
  | some g => return g
  | none => throw (.missingRegister (BloqKind.text bloq) bundleName)

/-- Puts bits together into a bundle, by default one without structure. -/
def join (bits : Grid (Soquet β)) (dtype? : Option DataType) : BuildM β (Soquet β) := do
  let n := bits.toList.length
  let dtype := dtype?.getD (.qany n)
  if dtype.bitsize ≠ n ∨ bits.rank ≠ 1 then
    throw (.shapeMismatch bundleName [dtype.bitsize] bits.shape)
  let out ← add (BloqKind.join dtype) ⟨[(bundleName, bits)]⟩
  out.single bundleName

/-- Makes a bundle in the zero state. -/
def allocate (dtype : DataType) : BuildM β (Soquet β) := do
  let out ← add (BloqKind.allocate dtype) Arrays.empty
  out.single bundleName

/-- Ends a bundle. -/
def free (s : Soquet β) : BuildM β Unit := do
  let _ ← add (BloqKind.free s.reg.dtype) (scalarArg s)

/-- An output register for an array that is left over, with the type of its first soquet. -/
def impliedRegister (name : String) (g : Grid (Soquet β)) : Register :=
  ⟨name, (g.toList.head?.map (·.reg.dtype)).getD .qbit, g.shape, .right⟩

/-- Adds an output register for each array that has none. -/
def addImplied (registers : List Register) : List (String × Grid (Soquet β)) → List Register
  | [] => registers
  | (name, g) :: rest =>
    addImplied (if registers.any fun r => r.name == name && r.side.isRight then registers
      else registers ++ [impliedRegister name g]) rest

/-- Closes the composite: the given arrays are wired to its outputs, and nothing may be left over.
While registers may still be added, arrays for unknown names become outputs of their own. -/
def finalize (final : Soquets β) : BuildM β (Composite β) := do
  modify fun b => if b.isOpen then { b with registers := addImplied b.registers final.entries } else b
  let signature ← (Signature.ofRegisters (← get).registers : Except Error Signature)
  consumeExactly ownName .rightDangle signature.rights final
  let b ← get
  if !b.available.isEmpty then
    throw (.danglingSoquets ((b.available.values.map Soquet.text).mergeSort fun s t => decide (s ≤ t)))
  Composite.assemble signature b.instances.toList b.connections.toList

/-- Adds registers one by one and collects the soquets of the inputs. -/
def addRegisters : List Register → Soquets β → BuildM β (Soquets β)
  | [], soquets => return soquets
  | reg :: rest, soquets => do
    match ← addRegister reg with
    | some g => addRegisters rest (soquets.insert reg.name g)
    | none => addRegisters rest soquets

/-- Starts with the registers of a signature; `isOpen` says whether more may be added later. -/
def start (signature : Signature) (isOpen : Bool) : BuildM β (Soquets β) := do
  let soquets ← addRegisters signature.registers Arrays.empty
  modify fun b => { b with isOpen := isOpen }
  return soquets

/-- The result of a construction from nothing. -/
def run {τ : Type} (m : BuildM β τ) : Except Error τ := (m.run {}).1

/-- The composite of a signature whose inside is wired by `wire`. -/
def compose (signature : Signature) (wire : Soquets β → BuildM β (Soquets β)) :
    Except Error (Composite β) :=
  run do
    let soquets ← start signature false
    let out ← wire soquets
    finalize out

end Builder

/-- The composite that holds one bloq and nothing else. -/
def Composite.ofBloq {β : Type} [BloqKind β] (bloq : β) : Except Error (Composite β) :=
  Builder.compose (BloqKind.signature bloq) (Builder.add bloq)

end BloqCircuit
