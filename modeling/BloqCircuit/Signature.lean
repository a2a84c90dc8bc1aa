import BloqCircuit.Register
/-! Signatures: the ordered registers of a bloq. -/
namespace BloqCircuit

/-- The registers of a bloq in order. A valid signature repeats a name only for one input with one
output; signatures that are read or assembled need not be valid. -/
structure Signature where
  registers : List Register
deriving DecidableEq, Repr, Inhabited

namespace Signature

/-- The first register that overlaps one of the same name among `seen` and the registers before it. -/
def firstOverlap (seen : List Register) : List Register → Option Register
  | [] => none
  | r :: rest =>
    if seen.any fun s => s.name == r.name && s.side.overlaps r.side then some r
    else firstOverlap (seen ++ [r]) rest

/-- Accepts registers that do not overlap under one name. -/
def ofRegisters (registers : List Register) : Except Error Signature :=
  match firstOverlap [] registers with
  | some r => .error (.duplicateRegister r.name)
  | none => .ok ⟨registers⟩

/-- Single registers that go through, of the given types. -/
def ofTypes (types : List (String × DataType)) : Except Error Signature :=
  ofRegisters (types.map fun p => Register.single p.1 p.2)

/-- Single registers that go through, of the given widths in qubits. -/
def ofWidths (widths : List (String × Nat)) : Except Error Signature :=
  ofTypes (widths.map fun p => (p.1, DataType.qubits p.2))

variable (s : Signature)

/-- The inputs. -/
def lefts : List Register := s.registers.filter (·.side.isLeft)

/-- The outputs. -/
def rights : List Register := s.registers.filter (·.side.isRight)

def getLeft? (name : String) : Option Register := s.lefts.find? (·.name == name)

def getRight? (name : String) : Option Register := s.rights.find? (·.name == name)

/-- Register names in order of first appearance, each with its registers. -/
def groups : List (String × List Register) :=
  (firstUses (s.registers.map (·.name))).map fun n => (n, s.registers.filter (·.name == n))

/-- The first name that more than one register has. -/
def repeatedName? : Option String := (s.groups.find? fun g => 1 < g.2.length).map (·.1)

def sumBits (registers : List Register) : Nat :=
  registers.foldr (fun r n => r.totalBits + n) 0

/-- The qubits of all quantum registers together. -/
def numQubits : Nat := sumBits (s.registers.filter (·.dtype.isQuantum))

def leftBits : Nat := sumBits s.lefts

def rightBits : Nat := sumBits s.rights

/-- The bits of all registers together, classical ones included. -/
def totalBits : Nat := sumBits s.registers

def allThru : Bool := s.registers.all (·.side == .thru)

/-- Inputs and outputs exchanged. -/
def adjoint : Signature := ⟨s.registers.map Register.adjoint⟩

def texts : List String := s.registers.map Register.text

theorem adjoint_adjoint : s.adjoint.adjoint = s := by
  cases s with
  | mk rs =>
    simp only [adjoint, List.map_map, mk.injEq]
    conv => rhs; rw [← List.map_id rs]
    exact List.map_congr_left fun r _ => Register.adjoint_adjoint r

end Signature
end BloqCircuit
