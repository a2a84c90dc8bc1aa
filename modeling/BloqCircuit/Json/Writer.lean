import BloqCircuit.Json
/-! Writing JSON text, on one line or indented by two blanks. -/
namespace BloqCircuit.Json

/-- A control character in four hexadecimal digits. -/
def controlText (n : Nat) : String :=
  let digits := String.ofList (Nat.toDigits 16 n)
  "\\u00" ++ (if digits.length = 1 then "0" else "") ++ digits

/-- Quotation marks, backslashes and control characters are escaped; all else stands for itself. -/
def charText (c : Char) : String :=
  if c = '"' then "\\\""
  else if c = '\\' then "\\\\"
  else if c = '\n' then "\\n"
  else if c = '\r' then "\\r"
  else if c = '\t' then "\\t"
  else if c.toNat = 8 then "\\b"
  else if c.toNat = 12 then "\\f"
  else if c.toNat < 0x20 then controlText c.toNat
  else c.toString

def stringText (s : String) : String :=
  "\"" ++ String.join (s.toList.map charText) ++ "\""

def nameText (s : Option String) : String := stringText (s.getD "")

mutual
/-- The value without blanks. -/
def compact : Json → String
  | null => "null"
  | bool true => "true"
  | bool false => "false"
  | number n => n.text
  | string s => nameText s
  | array js => "[" ++ ",".intercalate (compactElements js) ++ "]"
  | object ms => "\x7b" ++ ",".intercalate (compactMembers ms) ++ "\x7d"

def compactElements : List Json → List String
  | [] => []
  | j :: js => compact j :: compactElements js

def compactMembers : List (Option String × Json) → List String
  | [] => []
  | (name, j) :: ms => (nameText name ++ ":" ++ compact j) :: compactMembers ms
end

/-- A new line at a depth of nesting. -/
def newLine (depth : Nat) : String := "\n" ++ String.ofList (List.replicate (2 * depth) ' ')

/-- Parts between brackets, each on a line of its own. -/
def block (depth : Nat) (opening closing : String) (parts : List String) : String :=
  if parts.isEmpty then opening ++ closing
  else opening ++ ",".intercalate (parts.map (newLine (depth + 1) ++ ·)) ++ newLine depth ++ closing

mutual
/-- The value with every element and member on a line of its own, at a depth of nesting. -/
def indented (depth : Nat) : Json → String
  | null => "null"
  | bool true => "true"
  | bool false => "false"
  | number n => n.text
  | string s => nameText s
  | array js => block depth "[" "]" (indentedElements (depth + 1) js)
  | object ms => block depth "\x7b" "\x7d" (indentedMembers (depth + 1) ms)

def indentedElements (depth : Nat) : List Json → List String
  | [] => []
  | j :: js => indented depth j :: indentedElements depth js

def indentedMembers (depth : Nat) : List (Option String × Json) → List String
  | [] => []
  | (name, j) :: ms => (nameText name ++ ": " ++ indented depth j) :: indentedMembers depth ms
end

def pretty (j : Json) : String := j.indented 0

end BloqCircuit.Json
