import Std.Data.ExtTreeSet
/-! Qubits are plain values: they carry no state and compare by identity. -/
namespace BloqCircuit

inductive Qubit where
  /-- A qubit on a numbered line. -/
  | line (index : UInt32)
  | named (name : String)
  /-- An ancilla handed out by an allocator. -/
  | clean (index : UInt32)
deriving DecidableEq, Hashable, Repr, Inhabited

namespace Qubit

def text : Qubit → String
  | line i => "q(" ++ toString i.toNat ++ ")"
  | named n => n
  | clean i => "_c(" ++ toString i.toNat ++ ")"

/-- Lines come before names and names before ancillas. Names are ordered by code point. -/
instance : Ord Qubit where
  compare
  | line i, line j => compare i j
  | line _, _ => .lt
  | _, line _ => .gt
  | named m, named n => compare m n
  | named _, clean _ => .lt
  | clean _, named _ => .gt
  | clean i, clean j => compare i j

instance : Std.TransOrd Qubit where
  eq_swap {a b} := by
    cases a <;> cases b
    case line.line => exact Std.OrientedOrd.eq_swap (α := UInt32)
    case named.named => exact Std.OrientedOrd.eq_swap (α := String)
    case clean.clean => exact Std.OrientedOrd.eq_swap (α := UInt32)
    all_goals rfl
  isLE_trans {a b c} hab hbc := by
    cases a <;> cases b <;> cases c
    case line.line.line => exact Std.TransOrd.isLE_trans (α := UInt32) hab hbc
    case named.named.named => exact Std.TransOrd.isLE_trans (α := String) hab hbc
    case clean.clean.clean => exact Std.TransOrd.isLE_trans (α := UInt32) hab hbc
    all_goals first | rfl | (cases hab; done) | cases hbc

instance : Std.LawfulEqOrd Qubit where
  eq_of_compare {a b} h := by
    cases a <;> cases b
    case line.line => exact congrArg line (Std.LawfulEqOrd.eq_of_compare h)
    case named.named => exact congrArg named (Std.LawfulEqOrd.eq_of_compare h)
    case clean.clean => exact congrArg clean (Std.LawfulEqOrd.eq_of_compare h)
    all_goals cases h

def le (a b : Qubit) : Bool := (compare a b).isLE

def sorted (qs : List Qubit) : List Qubit := qs.mergeSort le

/-- The first `n` line qubits. -/
def lineRange (n : Nat) : List Qubit := (List.range n).map fun i => line (UInt32.ofNat i)

/-- `n` qubits named by a stem and a number. -/
def namedRange (stem : String) (n : Nat) : List Qubit :=
  (List.range n).map fun i => named (stem ++ toString i)

end Qubit

/-- Finite sets of qubits. Sets with the same members are equal. -/
abbrev QubitSet := Std.ExtTreeSet Qubit

/-- The first element that repeats an earlier one or is in `seen`. -/
def firstRepeat {τ : Type} [Ord τ] [Std.TransOrd τ] (seen : Std.ExtTreeSet τ) :
    List τ → Option τ
  | [] => none
  | x :: xs => if seen.contains x then some x else firstRepeat (seen.insert x) xs

/-- The elements in order of first occurrence, after those of `taken` from the last on. -/
def firstUsesFrom {τ : Type} [Ord τ] [Std.TransOrd τ] (seen : Std.ExtTreeSet τ)
    (taken : List τ) : List τ → List τ
  | [] => taken.reverse
  | x :: xs =>
    if seen.contains x then firstUsesFrom seen taken xs
    else firstUsesFrom (seen.insert x) (x :: taken) xs

/-- The elements in order of first occurrence. -/
def firstUses {τ : Type} [Ord τ] [Std.TransOrd τ] (xs : List τ) : List τ :=
  firstUsesFrom ∅ [] xs

end BloqCircuit
