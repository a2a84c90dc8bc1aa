import BloqCircuit.Composite
import BloqCircuit.Text.Blank
/-! Readable listings of a composite's wires. -/
namespace BloqCircuit.Composite
variable {β : Type} [BloqKind β]

/-- An instance and under it its wires, incoming ones first. Boundaries have no lines. -/
def visitLines (v : Visit β) : List String :=
  match v.node with
  | .placed x =>
    [x.text]
      ++ v.incoming.map (fun e => "  " ++ e.wire.left.text ++ " -> " ++ e.wire.right.label)
      ++ v.outgoing.map (fun e => "  " ++ e.wire.left.label ++ " -> " ++ e.wire.right.text)
  | _ => []

/-- The line between two generations. -/
def generationRule : String := "--------------------"

/-- The lines of all generations; those without an instance are left out, and a rule stands between
two that are not. -/
def ruled : List (List String) → List String
  | [] => []
  | [] :: rest => ruled rest
  | lines :: rest => match ruled rest with
    | [] => lines
    | more => lines ++ generationRule :: more

/-- The wires grouped by generation, without blanks at the end. -/
def listing (c : Composite β) : Except Error String := do
  let sorted ← c.sortedNodes .greedy
  let table := c.visitTable
  let generations := (c.graph.generations sorted).map fun nodes =>
    nodes.flatMap fun v => match table[v]? with
      | some visit => visitLines visit
      | none => []
  return Text.trimEnd ("\n".intercalate (ruled generations))

/-- The walk in greedy order, instances only. -/
def placedVisits (c : Composite β) : Except Error (List (Instance β × Visit β)) := do
  let visits ← c.visits .greedy
  return visits.filterMap fun v => v.node.instance?.map fun x => (x, v)

end BloqCircuit.Composite
