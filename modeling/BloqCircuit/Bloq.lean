import BloqCircuit.CircuitForm
import BloqCircuit.Composite
import BloqCircuit.Gate.Standard
/-! The gates and bloqs of the library. Either can wrap the other, so both are defined together. -/
namespace BloqCircuit

/-- How one register element is drawn. -/
inductive WireSymbol where
  /-- A control dot, filled or hollow. -/
  | circle (filled : Bool)
  | textBox (label : String)
  /-- A box with an arrow out of the bloq. -/
  | rarrowTextBox (label : String)
  /-- A box with an arrow into the bloq. -/
  | larrowTextBox (label : String)
  /-- The target of a controlled not. -/
  | modPlus
  /-- Text without a box. -/
  | text (label : String)
deriving DecidableEq, Repr

/-- How a declared gate decomposes: it allocates ancillas, applies gates to its qubits and ancillas,
and may free the ancillas. -/
structure GateBody (γ : Type) where
  ancillas : Nat
  /-- Gates with the positions of their qubits: first those of the declared gate, then the
  ancillas. -/
  steps : List (γ × List Nat)
  /-- Why the step after the last one cannot be made, if it cannot. -/
  fault : Option Error
  frees : Bool

/-- A gate given by what it can do. -/
structure DeclaredGate (γ κ : Type) where
  name : String
  /-- The text that declares the gate. Gates with different texts are different. -/
  definition : String
  arity : Nat
  body : Option (GateBody γ)
  unitary : Option (DenseMatrix κ)
  /-- The wire labels; by default each wire is labelled with the name. -/
  labels : Option (Except Error (List String))
  inverse : Option (Except Error γ)

/-- A bloq given by what it can do. -/
structure DeclaredBloq (β γ κ : Type) where
  name : String
  /-- The text that declares the bloq. Bloqs with different texts are different. -/
  definition : String
  signature : Signature
  decomposition : Except Error (Composite β)
  tensor : Option (DenseMatrix κ)
  /-- Symbols of register elements in row-major order; by default a box with the register name. -/
  symbols : List (String × List WireSymbol)
  native : Option (Native γ)

mutual
/-- Gates with angles in `α` and amplitudes in `κ`. -/
inductive Gate (α κ : Type) where
  | standard (g : StandardGate α)
  /-- A bloq that acts as a gate on the qubits of its registers, one register after another. -/
  | ofBloq (b : Bloq α κ)
  | declared (d : DeclaredGate (Gate α κ) κ)
  /-- A gate on one qubit that stands for the nest one level lower; the lowest stands for `x`. -/
  | nest (levels : Nat)

/-- Bloqs: operations with registers. -/
inductive Bloq (α κ : Type) where
  /-- Takes a bundle apart into its bits. -/
  | split (t : DataType)
  /-- Puts bits together into a bundle. -/
  | join (t : DataType)
  /-- Makes a bundle in the zero state. -/
  | allocate (t : DataType)
  /-- Ends a bundle in the zero state. -/
  | free (t : DataType)
  /-- The adjoint of a bloq that has no adjoint of its own. -/
  | adjoint (b : Bloq α κ)
  /-- A bloq applied a number of times in sequence. -/
  | power (b : Bloq α κ) (exponent : Nat)
  /-- A gate that acts as a bloq with one register. -/
  | ofGate (g : Gate α κ)
  | composite (c : Composite (Bloq α κ))
  | declared (d : DeclaredBloq (Bloq α κ) (Gate α κ) κ)
end

variable {α κ : Type}

/-! ## Equality -/

section
variable [BEq α]

mutual
/-- Gates are the same if they are built in the same way from the same parts. Declared gates are
told apart by their definitions. -/
def Gate.same : Gate α κ → Gate α κ → Bool
  | .standard f, .standard g => f == g
  | .ofBloq b, .ofBloq c => Bloq.same b c
  | .declared d, .declared e => d.definition == e.definition
  | .nest m, .nest n => m == n
  | _, _ => false

/-- Bloqs are the same if they are built in the same way from the same parts. Declared bloqs are
told apart by their definitions. -/
def Bloq.same : Bloq α κ → Bloq α κ → Bool
  | .split t, .split u => t == u
  | .join t, .join u => t == u
  | .allocate t, .allocate u => t == u
  | .free t, .free u => t == u
  | .adjoint b, .adjoint c => Bloq.same b c
  | .power b m, .power c n => m == n && Bloq.same b c
  | .ofGate g, .ofGate h => Gate.same g h
  | .composite ⟨s, is, es⟩, .composite ⟨t, js, fs⟩ =>
    s == t && sameEnds es fs && sameInstances is js
  | .declared d, .declared e => d.definition == e.definition
  | _, _ => false

def sameInstances : List (Instance (Bloq α κ)) → List (Instance (Bloq α κ)) → Bool
  | [], [] => true
  | ⟨m, b⟩ :: r, ⟨n, c⟩ :: s => m == n && Bloq.same b c && sameInstances r s
  | _, _ => false
end

mutual
theorem Gate.same_self [ReflBEq α] : (g : Gate α κ) → g.same g = true
  | .standard f => by simp [Gate.same]
  | .ofBloq b => by simp [Gate.same, Bloq.same_self b]
  | .declared d => by simp [Gate.same]
  | .nest n => by simp [Gate.same]

theorem Bloq.same_self [ReflBEq α] : (b : Bloq α κ) → b.same b = true
  | .split t => by simp [Bloq.same]
  | .join t => by simp [Bloq.same]
  | .allocate t => by simp [Bloq.same]
  | .free t => by simp [Bloq.same]
  | .adjoint b => by simp [Bloq.same, Bloq.same_self b]
  | .power b n => by simp [Bloq.same, Bloq.same_self b]
  | .ofGate g => by simp [Bloq.same, Gate.same_self g]
  | .composite ⟨s, is, es⟩ => by simp [Bloq.same, sameEnds_self, sameInstances_self is]
  | .declared d => by simp [Bloq.same]

theorem sameInstances_self [ReflBEq α] : (is : List (Instance (Bloq α κ))) →
    sameInstances is is = true
  | [] => by simp [sameInstances]
  | ⟨n, b⟩ :: r => by simp [sameInstances, Bloq.same_self b, sameInstances_self r]
end

/-- A bloq that is shared is not compared with itself. -/
instance [ReflBEq α] : BEq (Bloq α κ) where
  beq b c := withPtrEq b c (fun _ => b.same c) fun h => h ▸ b.same_self

instance [ReflBEq α] : BEq (Gate α κ) where
  beq g h := match g, h with
    | .ofBloq b, .ofBloq c => b == c
    | g, h => g.same h
end

/-! ## Registers and texts -/

/-- The name of the register of bookkeeping bloqs. -/
def bundleRegister (t : DataType) : Register := .single "reg" t

/-- The bits of a bundle, one element each. -/
def bitsRegister (t : DataType) : Register := { Register.single "reg" .qbit with shape := [t.bitsize] }

/-- The register of a gate that takes this many qubits: a single element for one qubit, an array
otherwise. -/
def gateRegister (arity : Nat) : Register :=
  { Register.single "q" .qbit with shape := if arity = 1 then [] else [arity] }

mutual
def Gate.arity : Gate α κ → Nat
  | .standard g => g.arity
  | .ofBloq b => b.signature.totalBits
  | .declared d => d.arity
  | .nest _ => 1

def Bloq.signature : Bloq α κ → Signature
  | .split t =>
    ⟨[{ bundleRegister t with side := .left }, { bitsRegister t with side := .right }]⟩
  | .join t =>
    ⟨[{ bitsRegister t with side := .left }, { bundleRegister t with side := .right }]⟩
  | .allocate t => ⟨[{ bundleRegister t with side := .right }]⟩
  | .free t => ⟨[{ bundleRegister t with side := .left }]⟩
  | .adjoint b => b.signature.adjoint
  | .power b _ => b.signature
  | .ofGate g => ⟨[gateRegister g.arity]⟩
  | .composite c => c.signature
  | .declared d => d.signature
end

section
variable [Angle α]

mutual
/-- A gate in messages and in operations. -/
def Gate.text : Gate α κ → String
  | .standard g => g.text
  | .ofBloq b => "bloq." ++ b.text
  | .declared d => d.name
  | .nest n => "nest" ++ toString n

def Bloq.text : Bloq α κ → String
  | .split _ => "Split"
  | .join _ => "Join"
  | .allocate _ => "Allocate"
  | .free _ => "Free"
  | .adjoint b => b.text ++ "†"
  | .power b n => b.text ++ "^" ++ toString n
  | .ofGate g => g.text
  | .composite c => "CompositeBloq([" ++ toString c.instances.length ++ " bloqs])"
  | .declared d => d.name
end

/-- The short name of a gate, without an angle. -/
def Gate.name : Gate α κ → String
  | .standard g => g.name
  | .ofBloq b => b.text
  | .declared d => d.name
  | .nest n => "nest" ++ toString n

instance : GateKind (Gate α κ) where
  name := Gate.name
  text := Gate.text
  arity := Gate.arity

instance : BloqKind (Bloq α κ) where
  signature := Bloq.signature
  text := Bloq.text
  split := .split
  join := .join
  allocate := .allocate
  free := .free
end

/-! ## Standing for each other -/

/-- The native circuit form of a bloq. -/
def Bloq.native? : Bloq α κ → Option (Native (Gate α κ))
  | .split t => some (.reshape (bundleRegister t) (bitsRegister t))
  | .join t => some (.reshape (bitsRegister t) (bundleRegister t))
  | .allocate t => some (.allocate (bundleRegister t))
  | .free t => some (.free (bundleRegister t))
  | .ofGate g => some (.gate g (gateRegister g.arity))
  | .declared d => d.native
  | .adjoint _ | .power .. | .composite _ => none

/-- The bloq that a gate stands for. -/
def Gate.bloq : Gate α κ → Bloq α κ
  | .ofBloq b => b
  | g => .ofGate g

instance : CircuitForm (Bloq α κ) (Gate α κ) where
  native? := Bloq.native?
  wrapped := .ofBloq
  ofGate := Gate.bloq

/-- A bloq repeated. Its registers must all go through. -/
def Bloq.repeated [Angle α] (b : Bloq α κ) (exponent : Nat) : Except Error (Bloq α κ) :=
  if b.signature.allThru then .ok (.power b exponent) else .error (.invalidPower b.text)

end BloqCircuit
