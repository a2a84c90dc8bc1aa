import BloqCircuit.Json
/-! Reading JSON text. Only the grammar is checked here; what a value may be is the business of
those who decode it. -/
namespace BloqCircuit.Json.Reader
open BloqCircuit.Decimal (Digit Numeral)

def skipSpace (s : List Char) : List Char := s.dropWhile isSpace

def digit? (c : Char) : Option Digit :=
  if c.isDigit then some (.last (c.toNat - 48)) else none

/-- The digits at the front, and the rest. -/
def digits : List Char → List Digit × List Char
  | [] => ([], [])
  | c :: r => match digit? c with
    | some d =>
      let (ds, rest) := digits r
      (d :: ds, rest)
    | none => ([], c :: r)

def valueOf (ds : List Digit) : Nat := ds.foldl (fun n d => 10 * n + d.val) 0

/-- A whole part: a zero, or digits that do not start with one. -/
def whole? (s : List Char) : Option (Nat × List Char) :=
  match digits s with
  | ([], _) => none
  | ([d], rest) => some (d.val, rest)
  | (d :: ds, rest) => if d.val = 0 then none else some (valueOf (d :: ds), rest)

/-- A point with digits after it, if there is a point. -/
def fraction? : List Char → Option (List Digit × List Char)
  | '.' :: r => match digits r with
    | ([], _) => none
    | (ds, rest) => some (ds, rest)
  | s => some ([], s)

/-- The digits of an exponent. -/
def power? (negative : Bool) (s : List Char) : Option (Option Int × List Char) :=
  match digits s with
  | ([], _) => none
  | (ds, rest) =>
    let n : Int := valueOf ds
    some (some (if negative then -n else n), rest)

/-- An exponent, if there is one. -/
def exponent? : List Char → Option (Option Int × List Char)
  | 'e' :: '+' :: r | 'E' :: '+' :: r => power? false r
  | 'e' :: '-' :: r | 'E' :: '-' :: r => power? true r
  | 'e' :: r | 'E' :: r => power? false r
  | s => some (none, s)

/-- A numeral after its sign. -/
def unsigned? (negative : Bool) (s : List Char) : Option (Numeral × List Char) := do
  let (whole, s) ← whole? s
  let (fraction, s) ← fraction? s
  let (exponent, s) ← exponent? s
  return ({ negative, whole, fraction, exponent }, s)

def numeral? : List Char → Option (Numeral × List Char)
  | '-' :: r => unsigned? true r
  | s => unsigned? false s

def hexDigit? (c : Char) : Option Nat :=
  if c.isDigit then some (c.toNat - 48)
  else if 'a' ≤ c && c ≤ 'f' then some (c.toNat - 87)
  else if 'A' ≤ c && c ≤ 'F' then some (c.toNat - 55)
  else none

/-- Four hexadecimal digits. -/
def unit? (a b c d : Char) : Option Nat := do
  return ((← hexDigit? a) * 16 + (← hexDigit? b)) * 256 + (← hexDigit? c) * 16 + (← hexDigit? d)

def isLeading (n : Nat) : Bool := 0xd800 ≤ n && n < 0xdc00

def isTrailing (n : Nat) : Bool := 0xdc00 ≤ n && n < 0xe000

/-- The character of a surrogate pair. -/
def ofPair (lead trail : Nat) : Char :=
  Char.ofNat (0x10000 + (lead - 0xd800) * 0x400 + (trail - 0xdc00))

/-- The character after a backslash, except for a `u`. -/
def escape? : Char → Option Char
  | '"' => some '"'
  | '\\' => some '\\'
  | '/' => some '/'
  | 'b' => some '\x08'
  | 'f' => some '\x0c'
  | 'n' => some '\n'
  | 'r' => some '\r'
  | 't' => some '\t'
  | _ => none

/-- The code units of a string up to its closing mark. Escapes may give halves of surrogate
pairs. -/
def units? : List Char → Option (List Nat × List Char)
  | [] => none
  | '"' :: r => some ([], r)
  | '\\' :: 'u' :: a :: b :: c :: d :: r => do
    let n ← unit? a b c d
    let (ns, rest) ← units? r
    return (n :: ns, rest)
  | '\\' :: e :: r => do
    let c ← escape? e
    let (ns, rest) ← units? r
    return (c.toNat :: ns, rest)
  | c :: r =>
    if c.toNat < 0x20 then none
    else do
      let (ns, rest) ← units? r
      return (c.toNat :: ns, rest)

/-- The characters of code units, unless half of a surrogate pair stands alone. -/
def ofUnits? : List Nat → Option (List Char)
  | [] => some []
  | [n] => if isLeading n || isTrailing n then none else some [Char.ofNat n]
  | n :: m :: rest =>
    if isTrailing n then none
    else if isLeading n then
      if isTrailing m then (ofUnits? rest).map (ofPair n m :: ·) else none
    else (ofUnits? (m :: rest)).map (Char.ofNat n :: ·)

/-- A string after its opening mark. -/
def inside? (s : List Char) : Option (Option String × List Char) := do
  let (ns, rest) ← units? s
  return ((ofUnits? ns).map String.ofList, rest)

section
variable (value : List Char → Option (Json × List Char))
  (elements : List Char → Option (List Json × List Char))
  (members : List Char → Option (List (Option String × Json) × List Char))

/-- An array after its opening bracket. -/
def array? (s : List Char) : Option (Json × List Char) :=
  match skipSpace s with
  | ']' :: r => some (.array [], r)
  | r => (elements r).map fun p => (.array p.1, p.2)

/-- An object after its opening brace. -/
def object? (s : List Char) : Option (Json × List Char) :=
  match skipSpace s with
  | '\x7d' :: r => some (.object [], r)
  | r => (members r).map fun p => (.object p.1, p.2)

/-- A value without blanks in front of it. -/
def form? (s : List Char) : Option (Json × List Char) :=
  match s with
  | 'n' :: 'u' :: 'l' :: 'l' :: r => some (.null, r)
  | 't' :: 'r' :: 'u' :: 'e' :: r => some (.bool true, r)
  | 'f' :: 'a' :: 'l' :: 's' :: 'e' :: r => some (.bool false, r)
  | '"' :: r => (inside? r).map fun p => (.string p.1, p.2)
  | '[' :: r => array? elements r
  | '\x7b' :: r => object? members r
  | r => (numeral? r).map fun p => (.number p.1, p.2)

/-- The elements from one on that was read: it is the last, or a comma and others follow. -/
def elementsFrom? (j : Json) (s : List Char) : Option (List Json × List Char) :=
  match skipSpace s with
  | ',' :: r => (elements r).map fun p => (j :: p.1, p.2)
  | ']' :: r => some ([j], r)
  | _ => none

/-- The members from one on that was read. -/
def membersFrom? (m : Option String × Json) (s : List Char) :
    Option (List (Option String × Json) × List Char) :=
  match skipSpace s with
  | ',' :: r => (members r).map fun p => (m :: p.1, p.2)
  | '\x7d' :: r => some ([m], r)
  | _ => none

/-- The members from one on whose name was read: a colon and a value follow. -/
def membersAfter? (name : Option String) (s : List Char) :
    Option (List (Option String × Json) × List Char) :=
  match skipSpace s with
  | ':' :: r => (value r).bind fun p => membersFrom? members (name, p.1) p.2
  | _ => none

/-- Members without blanks in front of them. -/
def membersAt? (s : List Char) : Option (List (Option String × Json) × List Char) :=
  match s with
  | '"' :: r => (inside? r).bind fun p => membersAfter? value members p.1 p.2
  | _ => none

end

mutual
/-- A value and the rest. `fuel` bounds the depth of nesting plus the number of elements. -/
def value? : (fuel : Nat) → List Char → Option (Json × List Char)
  | 0, _ => none
  | fuel + 1, s => form? (elements? fuel) (members? fuel) (skipSpace s)

/-- One or more values up to the closing bracket. -/
def elements? : (fuel : Nat) → List Char → Option (List Json × List Char)
  | 0, _ => none
  | fuel + 1, s => (value? fuel s).bind fun p => elementsFrom? (elements? fuel) p.1 p.2

/-- One or more members up to the closing brace. -/
def members? : (fuel : Nat) → List Char → Option (List (Option String × Json) × List Char)
  | 0, _ => none
  | fuel + 1, s => membersAt? (value? fuel) (members? fuel) (skipSpace s)
end

end Reader

/-- The value of a text that holds one value and blanks around it. -/
def read? (s : String) : Option Json :=
  match Reader.value? (s.length + 1) s.toList with
  | some (j, rest) => if (Reader.skipSpace rest).isEmpty then some j else none
  | none => none

end BloqCircuit.Json
