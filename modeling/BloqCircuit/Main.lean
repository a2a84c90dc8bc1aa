import BloqCircuit.CommandLine
/-! The program: it looks up the files that the arguments name and prints what the command gives. -/
open BloqCircuit.CommandLine

/-- What is on disk under a path. -/
def entryOf (path : String) : IO Entry := do
  try
    return .file (← IO.FS.readFile path)
  catch e =>
    match e with
    | .noFileOrDirectory .. => return .missing
    | .inappropriateType (some _) .. => return .beyondFile
    | .invalidArgument .. => return .nameTooLong
    | .permissionDenied .. => return .locked
    | .userError _ => return .binary
    | _ => return .directory

/-- The paths of a command. -/
def pathsOf (args : List String) : List String :=
  match Command.ofArguments? args with
  | some (.importCircuit p) | some (.roundTrip p) => p.input :: p.config.toList
  | _ => []

def main (args : List String) : IO UInt32 := do
  let entries ← (pathsOf args).mapM fun path => return (path, ← entryOf path)
  let output := run (fun path => (entries.lookup path).getD .missing) args
  IO.print output.stdout
  IO.eprint output.stderr
  return output.status
