import BloqCircuit.Json.Decode
import BloqCircuit.Json.Writer
import BloqCircuit.Gate.Standard
import BloqCircuit.Signature
/-! The JSON forms of qubits, gates and registers. -/
namespace BloqCircuit
open BloqCircuit.Json (tagged member)

/-- How angles are written in JSON. -/
class AngleJson (α : Type) where
  /-- The numeral of an angle; one that has none is written as null. -/
  numeral? : α → Option Decimal.Numeral
  /-- The angle that a numeral is read as, unless it is out of range. -/
  ofNumeral? : Decimal.Numeral → Option α

/-- An angle as a JSON value. -/
def angleJson {α : Type} [AngleJson α] (a : α) : Json :=
  match AngleJson.numeral? a with
  | some n => .number n
  | none => .null

/-- Words of 32 bits. -/
def wordLimit : Nat := 4294967296

/-- Words of 64 bits. -/
def sizeLimit : Nat := 18446744073709551616

namespace Qubit

def toJson : Qubit → Json
  | line i => tagged "Line" (.natural i.toNat)
  | named n => tagged "Named" (.text n)
  | clean i => tagged "Clean" (.natural i.toNat)

def ofJson? (j : Json) : Option Qubit :=
  match j.tag? with
  | some ("Line", some j) => (j.natural? wordLimit).map fun n => line (UInt32.ofNat n)
  | some ("Named", some j) => j.string?.map named
  | some ("Clean", some j) => (j.natural? wordLimit).map fun n => clean (UInt32.ofNat n)
  | _ => none

end Qubit

namespace StandardGate
variable {α : Type}

/-- The tag of a gate. -/
def tag : StandardGate α → String
  | i => "I"
  | x => "X"
  | y => "Y"
  | z => "Z"
  | h => "H"
  | s => "S"
  | sdg => "Sdg"
  | t => "T"
  | tdg => "Tdg"
  | rx _ => "Rx"
  | ry _ => "Ry"
  | rz _ => "Rz"
  | cx => "CX"
  | cz => "CZ"
  | swap => "Swap"
  | ccx => "CCX"
  | cswap => "CSwap"
  | reset => "Reset"
  | globalPhase _ => "GlobalPhase"

/-- The gates that have no angle. -/
def plain : List (StandardGate α) :=
  [i, x, y, z, h, s, sdg, t, tdg, cx, cz, swap, ccx, cswap, reset]

/-- The gate of a tag without an angle. -/
def ofTag? (tag : String) : Option (StandardGate α) := plain.find? fun g => g.tag == tag

/-- The gate of a tag with an angle. -/
def ofTagAngle? (tag : String) (angle : α) : Option (StandardGate α) :=
  [rx angle, ry angle, rz angle, globalPhase angle].find? fun g => g.tag == tag

variable [AngleJson α]

def toJson (g : StandardGate α) : Json :=
  match g.angle? with
  | some a => tagged g.tag (angleJson a)
  | none => .text g.tag

def ofJson? (j : Json) : Option (StandardGate α) :=
  match j.tag? with
  | some (tag, some (.number n)) => (AngleJson.ofNumeral? n).bind (ofTagAngle? tag)
  | some (tag, rest) => if Json.isBare rest then ofTag? tag else none
  | none => none

end StandardGate

namespace DataType

def toJson : DataType → Json
  | qbit => .text "QBit"
  | qany n => tagged "QAny" (.natural n)
  | qint n => tagged "QInt" (.natural n)
  | quint n => tagged "QUInt" (.natural n)
  | cbit => .text "CBit"
  | cany n => tagged "CAny" (.natural n)

/-- The type of a tag with a width. -/
def ofTagWidth? (width : Nat) : String → Option DataType
  | "QAny" => some (qany width)
  | "QInt" => some (qint width)
  | "QUInt" => some (quint width)
  | "CAny" => some (cany width)
  | _ => none

def ofJson? (j : Json) : Option DataType :=
  match j.tag? with
  | some ("QBit", rest) => if Json.isBare rest then some qbit else none
  | some ("CBit", rest) => if Json.isBare rest then some cbit else none
  | some (tag, some j) => (j.natural? sizeLimit).bind fun n => ofTagWidth? n tag
  | _ => none

end DataType

namespace Side

def toJson : Side → Json
  | left => .text "Left"
  | right => .text "Right"
  | thru => .text "Thru"

def ofJson? (j : Json) : Option Side :=
  match j.tag? with
  | some (tag, rest) =>
    if !Json.isBare rest then none
    else match tag with
      | "Left" => some left
      | "Right" => some right
      | "Thru" => some thru
      | _ => none
  | none => none

end Side

namespace Register

def toJson (r : Register) : Json :=
  .object [member "name" (.text r.name), member "dtype" r.dtype.toJson,
    member "shape" (.array (r.shape.map .natural)), member "side" r.side.toJson]

def ofJson? (j : Json) : Option Register :=
  match j.fields? ["name", "dtype", "shape", "side"] with
  | some [name, dtype, shape, side] => do
    return ⟨← name.string?, ← DataType.ofJson? dtype, ← shape.list? (Json.natural? sizeLimit),
      ← Side.ofJson? side⟩
  | _ => none

end Register

namespace Signature

def toJson (s : Signature) : Json :=
  .object [member "registers" (.array (s.registers.map Register.toJson))]

/-- The registers are not checked against each other. -/
def ofJson? (j : Json) : Option Signature :=
  match j.fields? ["registers"] with
  | some [registers] => (registers.list? Register.ofJson?).map Signature.mk
  | _ => none

end Signature

/-- Labels for the wires of a gate. -/
structure DiagramInfo where
  wireSymbols : List String

namespace DiagramInfo

def toJson (d : DiagramInfo) : Json :=
  .object [member "wire_symbols" (.array (d.wireSymbols.map .text))]

def ofJson? (j : Json) : Option DiagramInfo :=
  match j.fields? ["wire_symbols"] with
  | some [symbols] => (symbols.list? Json.string?).map DiagramInfo.mk
  | _ => none

end DiagramInfo
end BloqCircuit
