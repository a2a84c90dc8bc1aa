import BloqCircuit.Register
import Std.Data.ExtTreeMap
/-! Ports: the elements of registers on numbered nodes. Nothing but numbers and registers tells them
apart, so that they can be looked up quickly. -/
namespace BloqCircuit

/-- One element of one register on the node with a number. -/
structure Port where
  node : Nat
  index : List Nat
  reg : Register
deriving DecidableEq, Repr

namespace Port

/-- Ports are ordered field by field, the node first. -/
def order : Port → Port → Ordering :=
  compareLex (compareOn node) <| compareLex (compareOn index) (compareOn reg)

instance : Ord Port := ⟨order⟩

instance : Std.TransOrd Port := inferInstanceAs (Std.TransCmp
  (compareLex (compareOn node) (compareLex (compareOn index) (compareOn reg))))

instance : Std.LawfulEqOrd Port where
  eq_of_compare {p q} h := by
    have h : order p q = .eq := h
    simp only [order, compareLex_eq_eq, compareOn, Std.LawfulEqOrd.compare_eq_iff_eq] at h
    cases p; cases q; simp_all

end Port

/-- Values at ports. Maps with the same values at the same ports are equal. -/
abbrev PortMap (τ : Type) := Std.ExtTreeMap Port τ

end BloqCircuit
