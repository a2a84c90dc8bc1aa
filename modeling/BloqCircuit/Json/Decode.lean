import BloqCircuit.Json.Reader
/-! Decoding JSON values: numbers of a given range, records and tagged alternatives. -/
namespace BloqCircuit.Json

/-- A natural number below a limit, written without sign, point and exponent. -/
def natural? (limit : Nat) : Json → Option Nat
  | number n => if n.isInteger && !n.negative && n.whole < limit then some n.whole else none
  | _ => none

def string? : Json → Option String
  | string s => s
  | _ => none

def list? {τ : Type} (decode : Json → Option τ) : Json → Option (List τ)
  | array js => js.mapM decode
  | _ => none

/-- The names of members; all must be proper strings. -/
def names? (ms : List (Option String × Json)) : Option (List (String × Json)) :=
  ms.mapM fun m => m.1.map fun name => (name, m.2)

/-- A member that may be missing but may not occur twice. -/
def member? (ms : List (String × Json)) (name : String) : Option (Option Json) :=
  match ms.filter (·.1 == name) with
  | [] => some none
  | [m] => some (some m.2)
  | _ => none

/-- The fields of a record, from an object that has each of them once or from an array of just the
fields. Other members of the object do not matter. -/
def fields? (names : List String) : Json → Option (List Json)
  | object ms => do
    let ms ← names? ms
    names.mapM fun name => do (← member? ms name)
  | array js => if js.length = names.length then some js else none
  | _ => none

/-- A tag with what stands under it. A tag alone is a string; a tag with a value is an object of one
member. -/
def tag? : Json → Option (String × Option Json)
  | string (some t) => some (t, none)
  | object [(some t, j)] => some (t, some j)
  | _ => none

/-- Nothing stands under the tag: it is alone, or it holds null. -/
def isBare : Option Json → Bool
  | none => true
  | some null => true
  | _ => false

end BloqCircuit.Json
