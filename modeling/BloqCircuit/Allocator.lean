import BloqCircuit.Error
/-! Allocation of qubits. Effects are kept when a step fails: the state after a failure is part of
the result. -/
namespace BloqCircuit

/-- A computation that allocates and frees in a state `σ` and may fail. -/
abbrev AllocM (σ : Type) := ExceptT Error (StateM σ)

/-- What a state of allocation can do. -/
class Allocator (σ : Type) where
  /-- Fresh qubits. -/
  alloc : Nat → StateM σ (List Qubit)
  /-- Gives qubits back. -/
  free : List Qubit → AllocM σ Unit

/-- Hands out ancillas with increasing numbers. A freed qubit is not handed out again. -/
structure CleanPool where
  next : UInt32 := 0
  inUse : QubitSet := ∅
deriving Repr, Inhabited

namespace CleanPool

/-- The ancillas numbered from `next` on; numbers are words and wrap. -/
def fresh (next : UInt32) (n : Nat) : List Qubit :=
  (List.range n).map fun k => .clean (next + UInt32.ofNat k)

def alloc (n : Nat) (p : CleanPool) : List Qubit × CleanPool :=
  (fresh p.next n, ⟨p.next + UInt32.ofNat n, p.inUse.insertMany (fresh p.next n)⟩)

/-- The first of the qubits that is not in use. -/
def firstUnused (p : CleanPool) (qs : List Qubit) : Option Qubit :=
  qs.find? fun q => !p.inUse.contains q

/-- Frees all of the qubits, or none if one of them is not in use. -/
def free (qs : List Qubit) (p : CleanPool) : Except Error Unit × CleanPool :=
  match p.firstUnused qs with
  | some q => (.error (.qubitNotAllocated q), p)
  | none => (.ok (), { p with inUse := p.inUse.eraseMany qs })

instance : Allocator CleanPool where
  alloc n := fun p => CleanPool.alloc n p
  free qs := fun p => CleanPool.free qs p

end CleanPool

/-- An allocator on top of another one that tracks which qubits are live in a conversion. They are
live because they were allocated here, or because they were declared. -/
structure Scope (σ : Type) where
  base : σ
  managed : QubitSet := ∅
  declared : QubitSet := ∅

namespace Scope
variable {σ : Type}

/-- Treats qubits as live without allocating them. -/
def declare (qs : List Qubit) (s : Scope σ) : Scope σ :=
  { s with managed := s.managed.insertMany qs, declared := s.declared.insertMany qs }

/-- Takes a qubit out of the sets. One that was not declared joins the owned ones. -/
def releaseOne (r : List Qubit × Scope σ) (q : Qubit) : List Qubit × Scope σ :=
  (if r.2.declared.contains q then r.1 else q :: r.1,
    { r.2 with managed := r.2.managed.erase q, declared := r.2.declared.erase q })

/-- Takes the qubits out of the sets one by one. What remains of the list, a repeated qubit counted
again, was not declared and goes back to the base. -/
def release (qs : List Qubit) (s : Scope σ) : List Qubit × Scope σ :=
  let (owned, s) := qs.foldl releaseOne ([], s)
  (owned.reverse, s)

variable [Allocator σ]

def alloc (n : Nat) (s : Scope σ) : List Qubit × Scope σ :=
  let (qs, base) := Allocator.alloc (σ := σ) n s.base
  (qs, { s with base := base, managed := s.managed.insertMany qs })

/-- Frees qubits that are all managed. Declared ones are forgotten, the others freed in the base,
which may still refuse. -/
def free (qs : List Qubit) (s : Scope σ) : Except Error Unit × Scope σ :=
  match qs.find? fun q => !s.managed.contains q with
  | some q => (.error (.qubitNotAllocated q), s)
  | none =>
    let (owned, released) := release qs s
    if owned.isEmpty then (.ok (), released)
    else
      let (result, base) := Allocator.free (σ := σ) owned released.base
      (result, { released with base := base })

instance : Allocator (Scope σ) where
  alloc n := fun s => Scope.alloc n s
  free qs := fun s => Scope.free qs s

end Scope
end BloqCircuit
