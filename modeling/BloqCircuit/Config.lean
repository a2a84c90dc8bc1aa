import BloqCircuit.Codec
import BloqCircuit.Composite
/-! Settings for conversions. -/
namespace BloqCircuit
open BloqCircuit.Json (member)

namespace TraversalOrder

def name : TraversalOrder → String
  | greedy => "greedy"
  | insertion => "insertion"

def toJson (o : TraversalOrder) : Json := .text o.name

def ofJson? (j : Json) : Option TraversalOrder :=
  match j.tag? with
  | some (tag, rest) =>
    if !Json.isBare rest then none
    else if tag = "greedy" then some greedy
    else if tag = "insertion" then some insertion
    else none
  | none => none

end TraversalOrder

structure Config where
  /-- The register of a circuit that is imported without a signature. -/
  defaultRegister : String := "qubits"
  traversal : TraversalOrder := .greedy
deriving DecidableEq, Repr

namespace Config

def toJson (c : Config) : Json :=
  .object [member "default_register" (.text c.defaultRegister),
    member "traversal" c.traversal.toJson]

/-- A setting that is missing has its default. -/
def setting? {τ : Type} (decode : Json → Option τ) (default : τ) : Option Json → Option τ
  | none => some default
  | some j => decode j

/-- The values of the two settings, by name or in order. -/
def settings? : Json → Option (Option Json × Option Json)
  | .object ms => do
    let ms ← Json.names? ms
    return (← Json.member? ms "default_register", ← Json.member? ms "traversal")
  | .array [] => some (none, none)
  | .array [r] => some (some r, none)
  | .array [r, t] => some (some r, some t)
  | _ => none

def ofJson? (j : Json) : Option Config := do
  let (register, traversal) ← settings? j
  return ⟨← setting? Json.string? "qubits" register,
    ← setting? TraversalOrder.ofJson? .greedy traversal⟩

def ofText (s : String) : Except Error Config :=
  match (Json.read? s).bind ofJson? with
  | some c => .ok c
  | none => .error .config

end Config
end BloqCircuit
