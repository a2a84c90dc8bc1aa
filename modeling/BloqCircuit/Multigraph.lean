import Std.Data.ExtTreeSet
/-! Directed multigraphs on numbered nodes: topological orders under a priority, and generations. -/
namespace BloqCircuit

/-- The nodes are `0, ..., size - 1`; parallel edges and loops are allowed. -/
structure Multigraph where
  size : Nat
  edges : List (Nat × Nat)
deriving DecidableEq, Repr

namespace Multigraph

/-- How many edges end at each node. -/
def inDegrees (g : Multigraph) : Array Nat :=
  g.edges.foldl (fun d e => d.modify e.2 (· + 1)) (Array.replicate g.size 0)

/-- The nodes at the ends of the edges out of each node, one for each edge. -/
def targets (g : Multigraph) : Array (List Nat) :=
  g.edges.foldl (fun t e => t.modify e.1 (e.2 :: ·)) (Array.replicate g.size [])

/-- Nodes that may come next, under their priorities. The least has the least priority and, among
those, the least number. -/
abbrev Ready := Std.ExtTreeSet (Int × Nat) (compareLex (compareOn Prod.fst) (compareOn Prod.snd))

/-- Takes one edge off each of the given nodes; those without further edges become ready. -/
def release (priority : Nat → Int) : List Nat → Array Nat → Ready → Array Nat × Ready
  | [], degrees, ready => (degrees, ready)
  | v :: rest, degrees, ready =>
    let left := degrees.getD v 0 - 1
    release priority rest (degrees.setIfInBounds v left)
      (if left = 0 then ready.insert (priority v, v) else ready)

/-- Places the least ready node, releases its targets and goes on, at most `fuel` times. -/
def place (targets : Array (List Nat)) (priority : Nat → Int) :
    (fuel : Nat) → Array Nat → Ready → List Nat
  | 0, _, _ => []
  | fuel + 1, degrees, ready => match ready.min? with
    | none => []
    | some (p, v) =>
      let (degrees, ready) := release priority (targets.getD v []) degrees (ready.erase (p, v))
      v :: place targets priority fuel degrees ready

/-- All nodes, each after its predecessors, and of several that could come next always the least by
priority and number. There is none if the graph has a cycle. -/
def topologicalOrder? (g : Multigraph) (priority : Nat → Int) : Option (List Nat) :=
  let degrees := g.inDegrees
  let sources := (List.range g.size).filter fun v => degrees.getD v 0 = 0
  let ready : Ready := .ofList (sources.map fun v => (priority v, v)) _
  let order := place g.targets priority g.size degrees ready
  if order.length = g.size then some order else none

def isAcyclic (g : Multigraph) : Bool := (g.topologicalOrder? fun _ => 0).isSome

/-- The sources of the edges into each node, one for each edge. -/
def sources (g : Multigraph) : Array (List Nat) :=
  g.edges.foldl (fun t e => t.modify e.2 (e.1 :: ·)) (Array.replicate g.size [])

/-- One more than the greatest depth among the sources; zero if there are none. -/
def depthAfter (depths : Array Nat) (sources : List Nat) : Nat :=
  sources.foldl (fun d s => max d (depths.getD s 0 + 1)) 0

/-- The depths of the nodes so far, and the generations they stand in. -/
structure Layers where
  depths : Array Nat
  generations : Array (List Nat)

namespace Layers

/-- No node yet, of so many. -/
def start (size : Nat) : Layers := { depths := Array.replicate size 0, generations := #[] }

/-- Puts a node at the end of a generation, which is added with those before it if it is not there. -/
def put (generations : Array (List Nat)) (d v : Nat) : Array (List Nat) :=
  (generations ++ Array.replicate (d + 1 - generations.size) []).modify d (· ++ [v])

/-- One more node, after its sources. -/
def add (sources : Array (List Nat)) (l : Layers) (v : Nat) : Layers :=
  let d := depthAfter l.depths (sources.getD v [])
  { depths := l.depths.setIfInBounds v d, generations := put l.generations d v }

end Layers

/-- The nodes of a sorted list by depth, each generation in the order of the list. -/
def generations (g : Multigraph) (order : List Nat) : List (List Nat) :=
  (order.foldl (Layers.add g.sources) (.start g.size)).generations.toList

end Multigraph
end BloqCircuit
