import BloqCircuit.Quregs
import BloqCircuit.Soquet
/-! Bundles of qubits bound to soquets. A bundle is found by its qubits; a serial keeps the order in
which bundles were bound. -/
namespace BloqCircuit

/-- A soquet that carries a bundle, and how many bundles had been bound before it. -/
structure Bound (β : Type) where
  serial : Nat
  soquet : Soquet β

/-- Bundles of qubits with the soquets that carry them. -/
structure Bundles (β : Type) where
  /-- The serial of the next bundle. -/
  next : Nat := 0
  bound : Std.ExtTreeMap (List Qubit) (Bound β) := ∅

namespace Bundles
variable {β : Type}

def get? (b : Bundles β) (qubits : List Qubit) : Option (Soquet β) :=
  b.bound[qubits]?.map Bound.soquet

/-- Binds a bundle. One that is bound keeps its serial. -/
def insert (b : Bundles β) (qubits : List Qubit) (s : Soquet β) : Bundles β :=
  match b.bound[qubits]? with
  | some old => { b with bound := b.bound.insert qubits ⟨old.serial, s⟩ }
  | none => ⟨b.next + 1, b.bound.insert qubits ⟨b.next, s⟩⟩

/-- Unbinds a bundle. -/
def erase (b : Bundles β) (qubits : List Qubit) : Bundles β :=
  { b with bound := b.bound.erase qubits }

/-- The bundles in the order of binding. -/
def entries (b : Bundles β) : List (List Qubit × Soquet β) :=
  let bySerial : Std.ExtTreeMap Nat (List Qubit × Soquet β) :=
    b.bound.foldl (fun t qubits e => t.insert e.serial (qubits, e.soquet)) ∅
  bySerial.values

/-- The qubits of a list that no bundle holds. -/
def missing (b : Bundles β) (qubits : List Qubit) : List Qubit :=
  let unheld := b.bound.foldl (fun (set : QubitSet) held _ => set.eraseMany held) (.ofList qubits)
  qubits.filter unheld.contains

end Bundles

/-- The bundle of one register element. -/
def Register.bundle (r : Register) (g : Grid Qubit) (index : List Nat) : QubitBundle :=
  ⟨r.lane g index, r.dtype⟩

end BloqCircuit
