import BloqCircuit.Text.Unprinted
/-! Quoted text in which everything that does not print is escaped. -/
namespace BloqCircuit.Text

def hexDigits (n : Nat) : String := String.ofList (Nat.toDigits 16 n)

def escapedChar (c : Char) : String :=
  if c = '"' then "\\\""
  else if c = '\\' then "\\\\"
  else if c = '\n' then "\\n"
  else if c = '\t' then "\\t"
  else if c.toNat = 13 then "\\r"
  else if c.toNat = 0 then "\\0"
  else if isUnprinted c then "\\u\x7b" ++ hexDigits c.toNat ++ "\x7d"
  else c.toString

/-- The text between quotation marks. -/
def escaped (s : String) : String :=
  "\"" ++ String.join (s.toList.map escapedChar) ++ "\""

end BloqCircuit.Text
