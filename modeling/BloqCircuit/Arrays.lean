import BloqCircuit.Grid
import BloqCircuit.Error
/-! Arrays by register name, in the order in which the names were first put in. -/
namespace BloqCircuit

structure Arrays (τ : Type) where
  entries : List (String × Grid τ) := []

namespace Arrays
variable {τ : Type}

def empty : Arrays τ := ⟨[]⟩

def get? (a : Arrays τ) (name : String) : Option (Grid τ) := a.entries.lookup name

/-- Puts an array in. A name that is there keeps its place. -/
def insert (a : Arrays τ) (name : String) (g : Grid τ) : Arrays τ :=
  if a.entries.any (·.1 == name) then
    ⟨a.entries.map fun e => if e.1 == name then (name, g) else e⟩
  else ⟨a.entries ++ [(name, g)]⟩

/-- The array of a name and the map without it; the rest keeps its order. -/
def take (a : Arrays τ) (name : String) : Option (Grid τ × Arrays τ) :=
  (a.get? name).map fun g => (g, ⟨a.entries.filter (·.1 != name)⟩)

def ofList (entries : List (String × Grid τ)) : Arrays τ :=
  entries.foldl (fun a e => a.insert e.1 e.2) empty

def names (a : Arrays τ) : List String := a.entries.map (·.1)

def length (a : Arrays τ) : Nat := a.entries.length

/-- Two maps hold the same if they have the same names with the same arrays, in any order. -/
def holdsSame [BEq τ] (a b : Arrays τ) : Bool :=
  a.length == b.length && a.entries.all fun e =>
    match b.get? e.1 with
    | some g => e.2 == g
    | none => false

end Arrays
end BloqCircuit
