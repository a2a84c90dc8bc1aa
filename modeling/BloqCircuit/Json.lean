import BloqCircuit.Decimal.Layout
/-! JSON values as they are written. Numbers stay numerals, since what a number may be depends on
the place it is read for. -/
namespace BloqCircuit

inductive Json where
  | null
  | bool (b : Bool)
  | number (n : Decimal.Numeral)
  /-- A string; `none` if half of a surrogate pair stands in it alone. -/
  | string (s : Option String)
  | array (elements : List Json)
  /-- Members in the order in which they are written. -/
  | object (members : List (Option String × Json))
deriving Inhabited

namespace Json

def text (s : String) : Json := .string (some s)

def member (name : String) (j : Json) : Option String × Json := (some name, j)

/-- A natural number as a value. -/
def natural (n : Nat) : Json := .number { negative := false, whole := n }

/-- A value under a tag. -/
def tagged (tag : String) (j : Json) : Json := .object [member tag j]

/-- The blanks of JSON. -/
def isSpace (c : Char) : Bool := c = ' ' || c = '\n' || c = '\t' || c = '\r'

end Json
end BloqCircuit
