import BloqCircuit.Soquet
import BloqCircuit.Multigraph
import BloqCircuit.Port
/-! Composites: explicit graphs of placed bloqs. Every walk over a composite goes through
`Composite.visits`, which lists its nodes in topological order with their wires. -/
namespace BloqCircuit

/-- The order in which a composite is walked. -/
inductive TraversalOrder where
  /-- Bloqs that release qubits as early, bloqs that acquire them as late as the wires allow. -/
  | greedy
  /-- The order of insertion, as far as the wires allow. -/
  | insertion
deriving DecidableEq, Repr, Inhabited

/-- A wire with the numbers of the nodes at its ends. -/
structure Edge (β : Type) where
  source : Nat
  target : Nat
  wire : Connection β

/-- A graph of placed bloqs between two boundaries. The input boundary has number zero, the
instances follow in order, and the output boundary comes last. -/
structure Composite (β : Type) where
  signature : Signature
  instances : List (Instance β)
  edges : List (Edge β)

/-- A node under its number, with the wires that end and start at it. -/
structure Visit (β : Type) where
  number : Nat
  node : Node β
  incoming : List (Edge β)
  outgoing : List (Edge β)

section
variable {β : Type}

/-- Where a wire starts. -/
def Edge.start (e : Edge β) : Port := ⟨e.source, e.wire.left.index, e.wire.left.reg⟩

/-- Where a wire ends. -/
def Edge.stop (e : Edge β) : Port := ⟨e.target, e.wire.right.index, e.wire.right.reg⟩

/-- Two wires join the same elements of the same nodes. -/
def Edge.sameEnds (e f : Edge β) : Bool := e.start == f.start && e.stop == f.stop

/-- Wires that join the same elements of the same nodes, one by one. -/
def sameEnds : List (Edge β) → List (Edge β) → Bool
  | [], [] => true
  | e :: es, f :: fs => e.sameEnds f && sameEnds es fs
  | _, _ => false

theorem sameEnds_self (es : List (Edge β)) : sameEnds es es = true := by
  induction es with
  | nil => rfl
  | cons e es ih => simp [sameEnds, Edge.sameEnds, ih]
end

namespace Composite
variable {β : Type}

/-- What a wire joins is settled by the numbers of the nodes, so that the bloqs on them are compared
only once. -/
instance [BEq β] : BEq (Composite β) where
  beq a b := a.signature == b.signature && sameEnds a.edges b.edges && a.instances == b.instances

/-- The wires. -/
def connections (c : Composite β) : List (Connection β) := c.edges.map Edge.wire

/-- The input boundary, the instances in order, and the output boundary. -/
def nodes (c : Composite β) : List (Node β) :=
  .leftDangle :: (c.instances.map .placed ++ [.rightDangle])

/-- Instances under their numbers, each with its position. Of several with one number the last comes
first. -/
abbrev Numbering (β : Type) := Std.ExtTreeMap Nat (List (Nat × Instance β))

/-- The instances of a composite; positions count from one. -/
def numbering (instances : List (Instance β)) : Numbering β :=
  (instances.zipIdx 1).foldl
    (fun t e => t.alter e.1.number fun old => some ((e.2, e.1) :: old.getD [])) ∅

/-- The number of a node among `count` instances. Of several equal instances the last one counts. -/
def nodeIndex? [BEq β] (count : Nat) (instances : Numbering β) : Node β → Option Nat
  | .leftDangle => some 0
  | .rightDangle => some (count + 1)
  | .placed x => ((instances.getD x.number []).find? (·.2 == x)).map (·.1)

variable [BloqKind β]

def nodeOf (count : Nat) (instances : Numbering β) (s : Soquet β) : Except Error Nat :=
  match nodeIndex? count instances s.node with
  | some i => .ok i
  | none => .error (.missingBinding s.text)

/-- Wires as edges. Each end must be on a boundary or on one of the instances. -/
def edgesOf (instances : List (Instance β)) (connections : List (Connection β)) :
    Except Error (List (Edge β)) :=
  let numbered := numbering instances
  let count := instances.length
  connections.mapM fun w => do
    let source ← nodeOf count numbered w.left
    let target ← nodeOf count numbered w.right
    return ⟨source, target, w⟩

/-- How many nodes there are, boundaries included. -/
def size (c : Composite β) : Nat := c.instances.length + 2

def graph (c : Composite β) : Multigraph := ⟨c.size, c.edges.map fun e => (e.source, e.target)⟩

/-- A composite from its parts: every wire must end on known nodes, and there is no cycle. -/
def assemble (signature : Signature) (instances : List (Instance β))
    (connections : List (Connection β)) : Except Error (Composite β) := do
  let c : Composite β := ⟨signature, instances, ← edgesOf instances connections⟩
  if c.graph.isAcyclic then return c else throw .cycle

/-- The word with these low bits, read in two's complement. -/
def signedWord (n : Nat) : Int := Int.bmod n 18446744073709551616

/-- What a node asks of the walk: inputs come first, outputs last, and in between either all nodes
are alike or those come first that give up more bits than they take. -/
def priority (order : TraversalOrder) : Node β → Int
  | .leftDangle => -9223372036854775808
  | .rightDangle => 9223372036854775807
  | .placed x => match order with
    | .insertion => 0
    | .greedy =>
      let s := BloqKind.signature x.bloq
      signedWord s.rightBits - signedWord s.leftBits

/-- Wires by the node at one end, in the order of the edges. -/
def edgesAt (size : Nat) (edges : List (Edge β)) (ends : Edge β → Nat) : Array (List (Edge β)) :=
  edges.foldr (fun e t => t.modify (ends e) (e :: ·)) (Array.replicate size [])

/-- The numbers of the nodes in the order of the walk. -/
def sortedNodes (c : Composite β) (order : TraversalOrder) : Except Error (List Nat) :=
  let priorities := (c.nodes.map (priority order)).toArray
  match c.graph.topologicalOrder? fun v => priorities.getD v 0 with
  | some sorted => .ok sorted
  | none => .error .cycle

/-- Every node with its wires, by number. -/
def visitTable (c : Composite β) : Array (Visit β) :=
  let incoming := edgesAt c.size c.edges Edge.target
  let outgoing := edgesAt c.size c.edges Edge.source
  c.nodes.toArray.mapIdx fun v node => ⟨v, node, incoming.getD v [], outgoing.getD v []⟩

/-- The nodes in the order of the walk, each with its wires in the order of the connections. -/
def visits (c : Composite β) (order : TraversalOrder) : Except Error (List (Visit β)) := do
  let sorted ← c.sortedNodes order
  let table := c.visitTable
  return sorted.filterMap fun v => table[v]?

/-- The wires that end at the output boundary. -/
def finalConnections (c : Composite β) : List (Connection β) :=
  (c.edges.filter (·.target == c.instances.length + 1)).map Edge.wire

def text (c : Composite β) : String :=
  "CompositeBloq([" ++ toString c.instances.length ++ " bloqs])"

/-- Turned instances under their numbers; of several with one number the last counts. -/
def byNumber (turned : List (Instance β)) : Std.ExtTreeMap Nat (Instance β) :=
  turned.foldl (fun t y => t.insert y.number y) ∅

/-- The node that takes a node's place in the adjoint. -/
def turnNode (turned : Std.ExtTreeMap Nat (Instance β)) : Node β → Except Error (Node β)
  | .leftDangle => .ok .rightDangle
  | .rightDangle => .ok .leftDangle
  | .placed x => match turned[x.number]? with
    | some y => .ok (.placed y)
    | none => .error (.missingBinding x.text)

def turnSoquet (turned : Std.ExtTreeMap Nat (Instance β)) (s : Soquet β) :
    Except Error (Soquet β) := do
  return ⟨← turnNode turned s.node, s.reg.adjoint, s.index⟩

/-- The adjoint graph, given the instances with their adjoint bloqs: all wires are reversed, and
wires and instances are listed from the last to the first. -/
def adjointFrom (turned : List (Instance β)) (c : Composite β) :
    Except Error (Composite β) := do
  let turned := byNumber turned
  let connections ← c.connections.reverse.mapM fun w => do
    let left ← turnSoquet turned w.right
    let right ← turnSoquet turned w.left
    return (⟨left, right⟩ : Connection β)
  let instances := c.instances.reverse.filterMap fun x => turned[x.number]?
  assemble c.signature.adjoint instances connections

end Composite
end BloqCircuit
