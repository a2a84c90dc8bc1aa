/-! Command-line arguments. -/
namespace BloqCircuit.CommandLine

/-- What to convert, and with which settings. -/
structure Paths where
  input : String
  config : Option String
deriving DecidableEq, Repr

inductive Command where
  /-- Import a circuit and list the composite. -/
  | importCircuit (paths : Paths)
  /-- Import a circuit, export it again and compare. -/
  | roundTrip (paths : Paths)
  /-- Print the versions of all components. -/
  | version
  /-- Print the version of the program alone. -/
  | programVersion
deriving DecidableEq, Repr

/-- The names of the commands. -/
inductive Verb where
  | importCircuit
  | roundTrip
  | version
deriving DecidableEq, Repr

def Verb.ofName? : String → Option Verb
  | "import" => some importCircuit
  | "roundtrip" => some roundTrip
  | "version" => some version
  | _ => none

/-- What has been read of the arguments. -/
structure Reading where
  verb : Option Verb := none
  input : Option String := none
  config : Option String := none
deriving DecidableEq, Repr

/-- An option that takes a value. -/
inductive Setting where
  | input
  | config
deriving DecidableEq, Repr

def Setting.ofLong? : String → Option Setting
  | "--input" => some input
  | "--config" => some config
  | _ => none

def Setting.ofShort? : Char → Option Setting
  | 'i' => some input
  | 'c' => some config
  | _ => none

/-- Gives an option its value, once, and only after a command that has options. -/
def Reading.give (r : Reading) (s : Setting) (value : String) : Option Reading :=
  if r.verb ≠ some .importCircuit ∧ r.verb ≠ some .roundTrip then none
  else match s with
    | .input => if r.input.isSome then none else some { r with input := some value }
    | .config => if r.config.isSome then none else some { r with config := some value }

/-- What one argument amounts to. -/
inductive Item where
  /-- Flags that only ask for more log output. -/
  | flags
  /-- The question for the program's version. -/
  | versionFlag
  /-- The end of options. Only words may follow. -/
  | terminator
  /-- An option whose value is the next argument. -/
  | awaiting (s : Setting)
  | valued (s : Setting) (value : String)
  | word (w : String)
  | unknown
deriving DecidableEq, Repr

/-- A bundle of short options. The first option with a value takes the rest of the bundle, after an
equals sign if there is one, and nothing counts after the question for the version. -/
def bundle : List Char → Item
  | [] => .flags
  | 'v' :: rest => bundle rest
  | 'V' :: _ => .versionFlag
  | c :: rest => match Setting.ofShort? c, rest with
    | none, _ => .unknown
    | some s, [] => .awaiting s
    | some s, '=' :: value => .valued s (String.ofList value)
    | some s, value => .valued s (String.ofList value)

/-- An option in its long form. -/
def longOption (name : List Char) : Item :=
  let key := String.ofList (name.takeWhile (· ≠ '='))
  match name.dropWhile (· ≠ '=') with
  | [] =>
    if key = "--verbose" then .flags
    else if key = "--version" then .versionFlag
    else match Setting.ofLong? key with
      | some s => .awaiting s
      | none => .unknown
  | _ :: value => match Setting.ofLong? key with
    | some s => .valued s (String.ofList value)
    | none => .unknown

def Item.ofArgument (arg : String) : Item :=
  match arg.toList with
  | ['-', '-'] => .terminator
  | '-' :: '-' :: rest => longOption ('-' :: '-' :: rest)
  | ['-'] => .word arg
  | '-' :: rest => bundle rest
  | _ => .word arg

/-- A value may not look like an option. -/
def isValue (arg : String) : Bool :=
  match arg.toList with
  | ['-'] => true
  | '-' :: _ => false
  | _ => true

/-- The command that has been read, if it has all that it needs. -/
def Reading.command? (r : Reading) : Option Command := do
  match ← r.verb with
  | .version => some .version
  | .importCircuit => return .importCircuit ⟨← r.input, r.config⟩
  | .roundTrip => return .roundTrip ⟨← r.input, r.config⟩

/-- Reads arguments from left to right. No command takes words after the end of options. The
question for the program's version ends the reading; no command answers it. -/
def read : List String → Reading → Option Command
  | [], r => r.command?
  | arg :: rest, r => match Item.ofArgument arg with
    | .flags => read rest r
    | .versionFlag => if r.verb.isSome then none else some .programVersion
    | .terminator => if rest.isEmpty then r.command? else none
    | .valued s value => do read rest (← r.give s value)
    | .awaiting s => match rest with
      | value :: rest => if isValue value then do read rest (← r.give s value) else none
      | [] => none
    | .word w =>
      if r.verb.isSome then none
      else match Verb.ofName? w with
        | some v => read rest { r with verb := some v }
        | none => none
    | .unknown => none

/-- The command of an argument list, if it is well-formed. -/
def Command.ofArguments? (args : List String) : Option Command := read args {}

end BloqCircuit.CommandLine
