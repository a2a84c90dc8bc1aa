/-! What one element of a register carries. -/
namespace BloqCircuit

inductive DataType where
  | qbit
  /-- An unstructured bundle of qubits. -/
  | qany (width : Nat)
  /-- A signed integer in two's complement. -/
  | qint (width : Nat)
  /-- An unsigned integer. -/
  | quint (width : Nat)
  | cbit
  /-- An unstructured bundle of classical bits. -/
  | cany (width : Nat)
deriving DecidableEq, Repr, Inhabited

namespace DataType

/-- A single qubit for one qubit, a bundle otherwise. -/
def qubits (n : Nat) : DataType := if n = 1 then qbit else qany n

def bitsize : DataType → Nat
  | qbit | cbit => 1
  | qany n | qint n | quint n | cany n => n

def isQuantum : DataType → Bool
  | cbit | cany _ => false
  | _ => true

/-- A wire may enter a register if both agree on width and on being quantum. How the bits are read
does not matter. -/
def isConsistentWith (a b : DataType) : Bool :=
  a.bitsize == b.bitsize && a.isQuantum == b.isQuantum

def text : DataType → String
  | qbit => "QBit()"
  | qany n => "QAny(" ++ toString n ++ ")"
  | qint n => "QInt(" ++ toString n ++ ")"
  | quint n => "QUInt(" ++ toString n ++ ")"
  | cbit => "CBit()"
  | cany n => "CAny(" ++ toString n ++ ")"

/-- The kind as a number, and the width if there is one. -/
def code : DataType → List Nat
  | qbit => [0]
  | qany n => [1, n]
  | qint n => [2, n]
  | quint n => [3, n]
  | cbit => [4]
  | cany n => [5, n]

theorem code_injective {a b : DataType} (h : a.code = b.code) : a = b := by
  cases a <;> cases b <;> simp_all [code]

instance : Ord DataType := ⟨compareOn code⟩

instance : Std.TransOrd DataType := inferInstanceAs (Std.TransCmp (compareOn code))

instance : Std.LawfulEqOrd DataType where
  eq_of_compare h := code_injective (Std.LawfulEqOrd.eq_of_compare h)

theorem bitsize_qubits (n : Nat) : (qubits n).bitsize = n := by
  unfold qubits
  split
  · next h => rw [h]; rfl
  · rfl

end DataType
end BloqCircuit
