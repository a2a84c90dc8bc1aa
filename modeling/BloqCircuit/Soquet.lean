import BloqCircuit.Arrays
import BloqCircuit.Signature
/-! Soquets: single register elements on the nodes of a graph of bloqs, and the wires between
them. -/
namespace BloqCircuit

/-- A bloq placed in a graph under a number. -/
structure Instance (β : Type) where
  number : Nat
  bloq : β

/-- A node of the graph: a placed bloq or one of the two boundaries. -/
inductive Node (β : Type) where
  /-- The inputs of the whole graph. -/
  | leftDangle
  /-- The outputs of the whole graph. -/
  | rightDangle
  | placed (x : Instance β)

/-- One element of one register on one node. -/
structure Soquet (β : Type) where
  node : Node β
  reg : Register
  index : List Nat

/-- A wire from an output soquet to an input soquet. -/
structure Connection (β : Type) where
  left : Soquet β
  right : Soquet β

/-- What nodes and builders ask of a kind of bloqs: registers, a text, and the bloqs that only
reshape, create or end wires. -/
class BloqKind (β : Type) extends BEq β where
  signature : β → Signature
  text : β → String
  /-- Takes a bundle apart into its bits. -/
  split : DataType → β
  /-- Puts bits together into a bundle. -/
  join : DataType → β
  /-- Makes a bundle in the zero state. -/
  allocate : DataType → β
  /-- Ends a bundle that is in the zero state. -/
  free : DataType → β

variable {β : Type}

namespace Instance

instance [BEq β] : BEq (Instance β) := ⟨fun a b => a.number == b.number && a.bloq == b.bloq⟩

def text [BloqKind β] (x : Instance β) : String :=
  BloqKind.text x.bloq ++ "<" ++ toString x.number ++ ">"

end Instance

namespace Node

/-- Nodes are the same if both are the same boundary, or both are the same bloq under the same
number. -/
def same [BEq β] : Node β → Node β → Bool
  | leftDangle, leftDangle => true
  | rightDangle, rightDangle => true
  | placed x, placed y => x == y
  | _, _ => false

instance [BEq β] : BEq (Node β) := ⟨same⟩

def instance? : Node β → Option (Instance β)
  | placed x => some x
  | _ => none

def text [BloqKind β] : Node β → String
  | leftDangle => "LeftDangle"
  | rightDangle => "RightDangle"
  | placed x => x.text

end Node

namespace Soquet

/-- The numbers are compared first and the bloqs last, since bloqs can be large. -/
def same [BEq β] (a b : Soquet β) : Bool :=
  match a.node, b.node with
  | .placed x, .placed y =>
    x.number == y.number && a.index == b.index && a.reg == b.reg && x.bloq == y.bloq
  | .leftDangle, .leftDangle => a.index == b.index && a.reg == b.reg
  | .rightDangle, .rightDangle => a.index == b.index && a.reg == b.reg
  | _, _ => false

instance [BEq β] : BEq (Soquet β) := ⟨same⟩

/-- The register's name, with the index in brackets unless it is empty. -/
def label (s : Soquet β) : String :=
  if s.index.isEmpty then s.reg.name else s.reg.name ++ bracketed s.index

def text [BloqKind β] (s : Soquet β) : String := s.node.text ++ "." ++ s.label

end Soquet

namespace Connection

instance [BEq β] : BEq (Connection β) := ⟨fun a b => a.left == b.left && a.right == b.right⟩

def text [BloqKind β] (c : Connection β) : String := c.left.text ++ " -> " ++ c.right.text

end Connection

/-- Soquet arrays by register name. -/
abbrev Soquets (β : Type) := Arrays (Soquet β)

namespace Soquets

/-- The single soquet of an array without dimensions. -/
def single (s : Soquets β) (name : String) : Except Error (Soquet β) :=
  match s.get? name with
  | none => .error (.missingRegister "soquet map" name)
  | some g =>
    if g.rank ≠ 0 then .error (.shapeMismatch name [] g.shape)
    else match g.toList.head? with
      | some x => .ok x
      | none => .error (.missingRegister "soquet map" name)

/-- One array for each register, with the soquets of that register on a node. -/
def ofNode (node : Node β) (registers : List Register) : Soquets β :=
  Arrays.ofList (registers.map fun r => (r.name, Grid.ofFn r.shape fun i => ⟨node, r, i⟩))

end Soquets
end BloqCircuit
